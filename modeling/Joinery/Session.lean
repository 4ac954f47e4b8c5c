/-
Sessions: a model with a cache of the plans compiled on it.

A cached plan is found by the digest of the revision of the model and the
request, and amending the model empties the cache. Every plan that is compiled
has a number of its own, which tells a plan from the cache from a new one.
-/
import Joinery.Digest
import Joinery.Form.Model
import Joinery.Plan.Compile
import Joinery.Relation.Engine

namespace Joinery

open Json (Value)

/-- The digest of the text of a value. -/
def digestOf (v : Value) : String := Digest.ofText v.text

/-- What a plan is cached under. -/
def planKey (revision : Nat) (request : Request) : String :=
  digestOf (.array [.int revision, request.toValue])

/-- A plan with its number among all that a session has compiled. -/
structure Compiled where
  number : Nat
  plan : Plan

/-- A store with the plans that have been compiled over it. -/
structure Session where
  store : Store
  /-- Are plans cached? -/
  planCache : Bool
  /-- The cached plans by their keys. -/
  plans : List (String × Compiled)
  /-- How many plans have been compiled. -/
  count : Nat

namespace Session

/-- A session in which nothing has been compiled. -/
def ofStore (store : Store) (planCache : Bool) : Session := ⟨store, planCache, [], 0⟩

/-- Applies amendments as one. If that fails the session stays as it is. -/
def amend (s : Session) (amendments : List Amendment) :
    Except ModelError (List FieldId × Session) := do
  let (ids, store) ← s.store.apply amendments
  return (ids, { s with store, plans := [] })

/-- The cached plan of a key. -/
def cached? (s : Session) (key : String) : Option Compiled :=
  if s.planCache then (s.plans.find? (·.1 == key)).map (·.2) else none

/-- The plan of a request: from the cache, or compiled, and then put into the cache. -/
def compile (s : Session) (request : Request) : Except CompileError (Compiled × Session) :=
  let key := planKey s.store.revision request
  match s.cached? key with
  | some c => .ok (c, s)
  | none => do
    let c : Compiled := ⟨s.count, ← s.store.compileRequest request⟩
    let plans := if s.planCache then s.plans ++ [(key, c)] else s.plans
    return (c, { s with plans, count := s.count + 1 })

/-- What a request gives on some tables, and the session after it. -/
def run (s : Session) (tables : Tables) (request : Request) :
    Except ExecutionError Result × Session :=
  match s.compile request with
  | .error e => (.error (.compile e), s)
  | .ok (c, s) => (Engine.run tables c.plan, s)

/-- What some requests give in order. One that fails does not stop the others. -/
def runAll (s : Session) (tables : Tables) :
    List Request → List (Except ExecutionError Result) × Session
  | [] => ([], s)
  | request :: requests =>
    let (result, s) := s.run tables request
    let (results, s) := runAll s tables requests
    (result :: results, s)

end Session

end Joinery
