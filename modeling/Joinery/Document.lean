/-
Model documents: declarations of sources, amendments and tables.

A model is built in two passes: every source is defined first, and then all
amendments are applied as one. So sources may join each other in either order.
-/
import Joinery.File
import Joinery.Relation
import Joinery.Store

namespace Joinery

/-- The declaration of a field: a join, an aggregate, or else a scalar. -/
structure FieldDecl where
  name : String
  join : Option Join
  aggregate : Option Aggregate

/-- The declaration of a source. With a query it is derived, and declares no fields. -/
structure SourceDecl where
  name : String
  fields : List FieldDecl
  primaryKey : Option String
  query : Option Query

/-- The declaration of one more field for a source that is declared. -/
structure AmendmentDecl where
  owner : String
  field : FieldDecl

/-- A model document: sources, fields that are added to them, and tables. -/
structure Document where
  sources : List SourceDecl
  amendments : List AmendmentDecl
  tables : List Relation

/-- Why the declaration of a field has no meaning. -/
inductive FieldProblem where
  | needsPath (op : Operator)
  | joinAndAggregate
  /-- It stands on a derived source. -/
  | onDerivedSource
  deriving DecidableEq

/-- What is said of the problem. -/
def FieldProblem.message : FieldProblem → String
  | .needsPath op => s!"aggregate '{op.name}' needs a path"
  | .joinAndAggregate => "a field cannot be both a join and an aggregate"
  | .onDerivedSource =>
    "query-based sources take their fields from the query; add extra fields as amendments"

/-- Why there is no document, or no model of a document. -/
inductive LoadError where
  | fileNotFound (path : String)
  | unsupportedExtension (extension : String)
  | unreadable (problem : ReadProblem)
  | invalidToml
  | invalidJson
  | invalidField (source field : String) (problem : FieldProblem)
  | model (inner : ModelError)
  deriving DecidableEq

/-- What is said of the error. -/
def LoadError.message : LoadError → String
  | .fileNotFound path => s!"File not found: {path}"
  | .unsupportedExtension extension =>
    s!"Unsupported file extension: {extension}. Supported: .toml, .json"
  | .unreadable problem => s!"IO error: {problem.message}"
  | .invalidToml => "TOML error: not a model document"
  | .invalidJson => "JSON error: not a model document"
  | .invalidField source field problem =>
    s!"Invalid field '{field}' on '{source}': {problem.message}"
  | .model inner => s!"Model error: {inner.message}"

namespace FieldDecl

/-- The kind that a declaration gives. An aggregate without a path must be one that needs none. -/
def kind (d : FieldDecl) : Except FieldProblem FieldKind :=
  match d.join, d.aggregate with
  | none, none => .ok .scalar
  | some join, none => .ok (.join join)
  | none, some a =>
    if a.path.isNone && !a.op.allowsNoArgument then .error (.needsPath a.op)
    else .ok (.aggregate a)
  | some _, some _ => .error .joinAndAggregate

/-- The field that a declaration on a source defines. -/
def define (source : String) (d : FieldDecl) : Except LoadError FieldDef := do
  let kind ← d.kind.mapError (.invalidField source d.name)
  return ⟨d.name, kind⟩

end FieldDecl

/-- The store with one more declared source. -/
def SourceDecl.define (s : Store) (d : SourceDecl) : Except LoadError Store :=
  match d.query, d.fields with
  | some _, f :: _ => .error (.invalidField d.name f.name .onDerivedSource)
  | some query, [] => do
    let (_, t) ← (s.defineQuerySource d.name query d.primaryKey).mapError .model
    return t
  | none, fields => do
    let defs ← fields.mapM (FieldDecl.define d.name)
    let (_, t) ← (s.defineSource d.name defs d.primaryKey).mapError .model
    return t

namespace Document

/-- The amendments that are declared, in their order. -/
def amend (d : Document) : Except LoadError (List Amendment) :=
  d.amendments.mapM fun a => do return ⟨a.owner, ← a.field.define a.owner⟩

/-- The model of a document. -/
def build (d : Document) : Except LoadError Store := do
  let defined ← d.sources.foldlM SourceDecl.define Store.empty
  let (_, s) ← (defined.apply (← d.amend)).mapError .model
  return s

end Document

end Joinery
