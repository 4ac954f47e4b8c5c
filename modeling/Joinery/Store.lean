/-
The store of a model: its sources and their fields.

Sources and fields only ever come in at the end, each with its position as its
number, and stay as they are. A join names its target, so it may lead to a
source that is defined later, or never, or to its own owner. An operation that
fails leaves no store behind; one that succeeds counts as a revision.
-/
import Joinery.Distinct
import Joinery.Field
import Joinery.Query

namespace Joinery

/-- A named relation. Its rows are those of a table of its name, or the output of its query. -/
structure Source where
  id : SourceId
  name : String
  primaryKey : Option String
  query : Option Query

/-- Why a definition or an amendment is refused. -/
inductive ModelError where
  | duplicateName (name : String)
  | duplicateField (source field : String)
  | unknownSource (name : String)
  | unknownPrimaryKey (source key : String)
  deriving DecidableEq

/-- What is said of the error. -/
def ModelError.message : ModelError → String
  | .duplicateName name => s!"Duplicate source name: {name}"
  | .duplicateField source field => s!"Duplicate field '{field}' on source '{source}'"
  | .unknownSource name => s!"Unknown source: {name}"
  | .unknownPrimaryKey source key => s!"Primary key '{key}' is not a field of source '{source}'"

/-- The sources of a model and their fields. The number of each is its position. -/
structure Store where
  /-- In the order of definition. -/
  sources : List Source
  /-- In the order of creation. -/
  fields : List Field
  /-- How many operations have changed the store. -/
  revision : Nat

/-- A new field for a source that is already defined. -/
structure Amendment where
  owner : String
  field : FieldDef

namespace Store

/-- The store before the first operation. -/
def empty : Store := ⟨[], [], 0⟩

/-! ## Reading -/

/-- The source of a number. -/
def source? (s : Store) (id : SourceId) : Option Source := s.sources[id]?

/-- The field of a number. -/
def field? (s : Store) (id : FieldId) : Option Field := s.fields[id]?

/-- The source of a name. -/
def sourceNamed? (s : Store) (name : String) : Option Source :=
  s.sources.find? (·.name == name)

/-- The fields of a source, in the order of creation. -/
def fieldsOf (s : Store) (owner : SourceId) : List Field :=
  s.fields.filter (·.owner == owner)

/-- The field of a source with a name. -/
def fieldNamed? (s : Store) (owner : SourceId) (name : String) : Option Field :=
  s.fields.find? fun f => f.owner == owner && f.name == name

/-- Every join of the model, in the order of creation. -/
def joinFields (s : Store) : List Field := s.fields.filter (·.kind.join?.isSome)

/-- The source that a join leads to, if it is defined. -/
def target? (s : Store) (f : Field) : Option Source := do
  s.sourceNamed? (← f.kind.join?).target

/-- The name of a source by its number. -/
def sourceName (s : Store) (id : SourceId) : String :=
  match s.source? id with
  | some source => source.name
  | none => ""

/-- The name of a field with that of its owner in front: `source.field`. -/
def qualifiedName (s : Store) (f : Field) : String := s!"{s.sourceName f.owner}.{f.name}"

/-- The source of a name, or the error that there is none. -/
def getSource (s : Store) (name : String) : Except ModelError Source :=
  match s.sourceNamed? name with
  | some source => .ok source
  | none => .error (.unknownSource name)

/-! ## Defining sources -/

/-- The store with one more field at the end. -/
def push (s : Store) (owner : SourceId) (d : FieldDef) : Store :=
  { s with fields := s.fields ++ [⟨s.fields.length, owner, d.name, d.kind⟩] }

/-- May a source of this name have these fields and this primary key? -/
def checkSource (s : Store) (name : String) (fields : List String) (primaryKey : Option String) :
    Except ModelError Unit :=
  if (s.sourceNamed? name).isSome then .error (.duplicateName name)
  else match firstRepeat? fields with
    | some field => .error (.duplicateField name field)
    | none =>
      match primaryKey with
      | none => .ok ()
      | some key => if fields.contains key then .ok () else .error (.unknownPrimaryKey name key)

/-- The store with one more source and its fields, and the number of the source. -/
def addSource (s : Store) (name : String) (fields : List FieldDef) (primaryKey : Option String)
    (query : Option Query) : Except ModelError (SourceId × Store) := do
  s.checkSource name (fields.map (·.name)) primaryKey
  let id := s.sources.length
  let opened : Store :=
    { s with sources := s.sources ++ [⟨id, name, primaryKey, query⟩], revision := s.revision + 1 }
  return (id, fields.foldl (fun t d => t.push id d) opened)

/-- Defines a source whose rows are those of a table. -/
def defineSource (s : Store) (name : String) (fields : List FieldDef)
    (primaryKey : Option String) : Except ModelError (SourceId × Store) :=
  s.addSource name fields primaryKey none

/-- Defines a source whose rows are the output of a query. Its fields are the output columns, all
of them scalar; the source of the query need not be defined. -/
def defineQuerySource (s : Store) (name : String) (query : Query)
    (primaryKey : Option String) : Except ModelError (SourceId × Store) :=
  s.addSource name (query.outputNames.map fun n => ⟨n, .scalar⟩) primaryKey (some query)

/-! ## Amending sources -/

/-- The owner of an amendment, if it may have the field: it is defined, and neither it nor the
amendments before this one have a field of that name. -/
def checkAmendment (s : Store) (pending : List (SourceId × String)) (a : Amendment) :
    Except ModelError SourceId :=
  match s.sourceNamed? a.owner with
  | none => .error (.unknownSource a.owner)
  | some owner =>
    if (s.fieldNamed? owner.id a.field.name).isSome || pending.contains (owner.id, a.field.name)
    then .error (.duplicateField a.owner a.field.name)
    else .ok owner.id

/-- Adds a field to a source. The target of a join need not be defined. -/
def addField (s : Store) (owner : String) (field : FieldDef) :
    Except ModelError (FieldId × Store) := do
  let id ← s.checkAmendment [] ⟨owner, field⟩
  return (s.fields.length, { s.push id field with revision := s.revision + 1 })

/-- Adds a join to a source. -/
def addJoinField (s : Store) (owner name target : String) (cardinality : Cardinality)
    (on : Condition) : Except ModelError (FieldId × Store) :=
  s.addField owner ⟨name, .join ⟨target, cardinality, on⟩⟩

/-- Checks every amendment against the store and the amendments before it. -/
def checkAll (s : Store) (pending : List (SourceId × String)) :
    List Amendment → Except ModelError (List (SourceId × FieldDef))
  | [] => .ok []
  | a :: as => do
    let owner ← s.checkAmendment pending a
    let rest ← s.checkAll (pending ++ [(owner, a.field.name)]) as
    return (owner, a.field) :: rest

/-- Applies amendments as one: all of them are checked before the first is written. They count as
one revision, and none of them as none. -/
def apply (s : Store) (amendments : List Amendment) : Except ModelError (List FieldId × Store) := do
  let checked ← s.checkAll [] amendments
  let t := checked.foldl (fun t (owner, d) => t.push owner d) s
  let ids := (List.range checked.length).map (s.fields.length + ·)
  return (ids, if checked.isEmpty then t else { t with revision := t.revision + 1 })

end Store

end Joinery
