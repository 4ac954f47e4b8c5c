/-
The join graph of a model: sources joined to sources.

Every join whose target is defined is an edge; the others dangle. Cycles are
legal and are only reported: a source is on a cycle when it can reach itself,
and two sources are in one group when each can reach the other.
-/
import Joinery.Store

namespace Joinery

/-- A join between two defined sources. -/
structure Edge where
  field : FieldId
  name : String
  cardinality : Cardinality
  source : SourceId
  target : SourceId
  deriving DecidableEq

/-- A join whose target is not defined. -/
structure DanglingJoin where
  owner : String
  field : String
  target : String
  deriving DecidableEq

/-- The sources and the joins between them. -/
structure JoinGraph where
  /-- The names of the sources, at their numbers. -/
  nodes : List String
  /-- In the order of their fields. -/
  edges : List Edge
  dangling : List DanglingJoin

/-- The edge of a join, if its target is defined. -/
def Store.edge? (s : Store) (f : Field) : Option Edge := do
  let join ← f.kind.join?
  let target ← s.sourceNamed? join.target
  return ⟨f.id, f.name, join.cardinality, f.owner, target.id⟩

/-- What dangles of a join: nothing, if its target is defined. -/
def Store.dangling? (s : Store) (f : Field) : Option DanglingJoin := do
  let join ← f.kind.join?
  match s.sourceNamed? join.target with
  | some _ => none
  | none => return ⟨s.sourceName f.owner, f.name, join.target⟩

/-- The graph of a store: each join is an edge, or dangles. -/
def Store.graph (s : Store) : JoinGraph :=
  { nodes := s.sources.map (·.name)
    edges := s.fields.filterMap s.edge?
    dangling := s.fields.filterMap s.dangling? }

namespace JoinGraph

/-- The name of a node. -/
def nodeName (g : JoinGraph) (id : SourceId) : String := g.nodes[id]?.getD ""

/-- The sources that one join leads to. -/
def successors (g : JoinGraph) (id : SourceId) : List SourceId :=
  (g.edges.filter (·.source == id)).map (·.target)

/-- The sources `seen` and all that up to `rounds` joins lead to from those of them that were found
last. A source is found once. -/
def spread (g : JoinGraph) : Nat → List SourceId → List SourceId → List SourceId
  | 0, seen, _ => seen
  | rounds + 1, seen, last =>
    let next := (last.flatMap g.successors).eraseDups.filter fun id => !seen.contains id
    g.spread rounds (seen ++ next) next

/-- The sources that one or more joins lead to. A shortest way visits no source twice, so as many
rounds as there are sources find them all. -/
def reachable (g : JoinGraph) (id : SourceId) : List SourceId :=
  let first := (g.successors id).eraseDups
  g.spread g.nodes.length first first

/-- Do some edges lead from one source to the other? -/
def reaches (g : JoinGraph) (a b : SourceId) : Bool := (g.reachable a).contains b

/-- The sources that can reach themselves. -/
def onCycle (g : JoinGraph) : List SourceId :=
  (List.range g.nodes.length).filter fun id => g.reaches id id

/-- Does some source reach itself? -/
def isCyclic (g : JoinGraph) : Bool := !g.onCycle.isEmpty

/-- The graph with its joins read backwards. -/
def reversed (g : JoinGraph) : JoinGraph :=
  { g with edges := g.edges.map fun e => { e with source := e.target, target := e.source } }

/-- The names of the sources that a source can reach and be reached from, sorted. -/
def groupOf (g : JoinGraph) (id : SourceId) : List String :=
  let back := g.reversed.reachable id
  (((g.reachable id).filter fun other => back.contains other).map g.nodeName).mergeSort

/-- The order of groups: by their first names that differ. -/
def groupLe : List String → List String → Bool
  | [], _ => true
  | _ :: _, [] => false
  | a :: as, b :: bs => a < b || a == b && groupLe as bs

/-- The groups of sources that can reach each other, sorted. -/
def cycleGroups (g : JoinGraph) : List (List String) :=
  (g.onCycle.map g.groupOf).eraseDups.mergeSort groupLe

/-- The joins of a source with the names of their targets. -/
def joinsFrom (g : JoinGraph) (id : SourceId) : List (String × String) :=
  (g.edges.filter (·.source == id)).map fun e => (e.name, g.nodeName e.target)

end JoinGraph

end Joinery
