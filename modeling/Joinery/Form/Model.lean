/-
The written form of a model: paths, fields and queries as values, and read from
trees.

A path is written as its text. A field is a scalar by its name alone, and an
aggregate or a join by an object of one member. A condition is told by the
member `op`: `=` with the two references, or `and` with a list of conditions.
-/
import Joinery.Json.Record
import Joinery.Json.Writer
import Joinery.Store

namespace Joinery

open Json

namespace Json

/-- A value, or null. -/
def orNull {α : Type} (write : α → Value) : Option α → Value
  | none => .null
  | some a => write a

/-- A member of a record, left out if there is nothing to write. -/
def ifPresent {α : Type} (name : String) (write : α → Value) : Option α → List (String × Value)
  | none => []
  | some a => [(name, write a)]

/-- A list of values. -/
def listed {α : Type} (write : α → Value) (items : List α) : Value := .array (items.map write)

end Json

/-! ## Names -/

/-- A path is written as its text. -/
def Path.toValue (p : Path) : Value := .string p.text

/-- A path is read by parsing its text. -/
def Path.ofTree? (t : Tree) : Option Path := do (Path.parse (← string? t)).toOption

/-- An operator is written as its name. -/
def Operator.toValue (op : Operator) : Value := .string op.name

/-- An operator is read as a constant. -/
def Operator.ofTree? (o : Origin) (t : Tree) : Option Operator := constant? o Operator.ofName? t

/-- A cardinality is written as its name. -/
def Cardinality.toValue (c : Cardinality) : Value := .string c.name

/-- A cardinality is read as a constant. -/
def Cardinality.ofTree? (o : Origin) (t : Tree) : Option Cardinality :=
  constant? o Cardinality.ofName? t

/-! ## Aggregates -/

namespace Aggregate

/-- An aggregate as it is written; without a path it has no such member. -/
def toValue (a : Aggregate) : Value :=
  .object (("op", a.op.toValue) :: ifPresent "path" Path.toValue a.path)

/-- An aggregate as it is read. -/
def ofTree? (o : Origin) (t : Tree) : Option Aggregate := do
  let ms ← members? ["op", "path"] o t
  return ⟨← ms.required "op" (Operator.ofTree? o), ← ms.optional "path" Path.ofTree?⟩

end Aggregate

namespace AggregateRequest

/-- A requested aggregate as it is written, with the members that it has. -/
def toValue (r : AggregateRequest) : Value :=
  .object (ifPresent "name" .string r.name ++ ifPresent "op" Operator.toValue r.op ++
    ifPresent "path" Path.toValue r.path)

/-- A requested aggregate as it is read; every member may be left out. -/
def ofTree? (o : Origin) (t : Tree) : Option AggregateRequest := do
  let ms ← members? ["name", "op", "path"] o t
  return ⟨← ms.optional "name" string?, ← ms.optional "op" (Operator.ofTree? o),
    ← ms.optional "path" Path.ofTree?⟩

end AggregateRequest

/-! ## Conditions -/

namespace Condition

/-- The two kinds of condition. -/
inductive Kind where
  | equal
  | all
  deriving DecidableEq

/-- The kinds by their tags, in the order of their positions. -/
def kinds : List (String × Kind) := [("=", .equal), ("and", .all)]

mutual
/-- A condition as it is written, its operator first. -/
def toValue : Condition → Value
  | .equal left right =>
    .object [("op", .string "="), ("left", left.toValue), ("right", right.toValue)]
  | .all kids => .object [("op", .string "and"), ("kids", .array (toValues kids))]

/-- The conditions of a conjunction as they are written. -/
def toValues : List Condition → List Value
  | [] => []
  | c :: cs => toValue c :: toValues cs
end

/-- The kind that the members of an object tell: `op` must stand once. -/
def kindOf? (o : Origin) (ms : List (Option String × Tree)) : Option Kind :=
  match ms.filter (·.1 == some "op") with
  | [(_, tag)] => tag? o kinds tag
  | _ => none

/-- An equality, read from the members beside its tag. -/
def equalOf? (o : Origin) (t : Tree) : Option Condition := do
  let ms ← members? ["left", "right"] o.inTagged t
  return .equal (← ms.required "left" Path.ofTree?) (← ms.required "right" Path.ofTree?)

mutual
/-- A condition, read from a tree without unreadable parts. -/
def read? (o : Origin) : Tree → Option Condition
  | .object ms =>
    match kindOf? o ms with
    | none => none
    | some .equal => equalOf? o (.object (ms.filter (·.1 != some "op")))
    | some .all => (readKids? o.inTagged ms).map .all
  | .array [tag, kids] =>
    match tag? o kinds tag with
    | some .all => (readList? o.inTagged kids).map .all
    | _ => none
  | .array [tag, left, right] =>
    if tag? o kinds tag = some .equal then equalOf? o (.array [left, right]) else none
  | _ => none

/-- The conditions in the member `kids`, which must stand once. -/
def readKids? (o : Origin) : List (Option String × Tree) → Option (List Condition)
  | [] => none
  | (n, t) :: ms =>
    if n = some "kids" then
      if ms.any (·.1 == some "kids") then none else readList? o t
    else readKids? o ms

/-- The conditions that an array of trees is read as. -/
def readList? (o : Origin) : Tree → Option (List Condition)
  | .array items => readItems? o items
  | _ => none

/-- The conditions that trees are read as, if all of them are conditions. -/
def readItems? (o : Origin) : List Tree → Option (List Condition)
  | [] => some []
  | t :: ts => do
    let c ← read? o t
    return c :: (← readItems? o ts)
end

/-- A condition, told by its tag: no part of its tree may be unreadable. -/
def ofTree? (o : Origin) (t : Tree) : Option Condition := if t.isReadable then read? o t else none

end Condition

/-! ## Fields -/

namespace Join

/-- The definition of a join as it is written. -/
def toValue (j : Join) : Value :=
  .object [("target", .string j.target), ("cardinality", j.cardinality.toValue),
    ("on", j.on.toValue)]

/-- The definition of a join as it is read. -/
def ofTree? (o : Origin) (t : Tree) : Option Join := do
  let ms ← members? ["target", "cardinality", "on"] o t
  return ⟨← ms.required "target" string?, ← ms.required "cardinality" (Cardinality.ofTree? o),
    ← ms.required "on" (Condition.ofTree? o)⟩

end Join

namespace FieldKind

/-- A kind as it is written: the name of a scalar, else one member with the definition. -/
def toValue : FieldKind → Value
  | .scalar => .string "scalar"
  | .aggregate a => .object [("aggregate", a.toValue)]
  | .join j => .object [("join", j.toValue)]

/-- A kind as it is read. -/
def ofTree? (o : Origin) : Tree → Option FieldKind
  | .object [(some "aggregate", t)] => (Aggregate.ofTree? o t).map .aggregate
  | .object [(some "join", t)] => (Join.ofTree? o t).map .join
  | t => constant? o (fun name => if name = "scalar" then some .scalar else none) t

end FieldKind

namespace FieldDef

/-- The definition of a field as it is written. -/
def toValue (d : FieldDef) : Value :=
  .object [("name", .string d.name), ("kind", d.kind.toValue)]

/-- The definition of a field as it is read. -/
def ofTree? (o : Origin) (t : Tree) : Option FieldDef := do
  let ms ← members? ["name", "kind"] o t
  return ⟨← ms.required "name" string?, ← ms.required "kind" (FieldKind.ofTree? o)⟩

end FieldDef

/-- A field as it is written, with its number and its owner. -/
def Field.toValue (f : Field) : Value :=
  .object [("id", .int f.id), ("owner", .int f.owner), ("name", .string f.name),
    ("kind", f.kind.toValue)]

/-! ## Queries -/

namespace Stage

/-- A stage as it is written. -/
def toValue (s : Stage) : Value :=
  .object [("group_by", listed Path.toValue s.groupBy),
    ("aggregates", listed AggregateRequest.toValue s.aggregates)]

/-- A stage as it is read; either list may be left out. -/
def ofTree? (o : Origin) (t : Tree) : Option Stage := do
  let ms ← members? ["group_by", "aggregates"] o t
  return ⟨← ms.withDefault "group_by" [] (list? Path.ofTree?),
    ← ms.withDefault "aggregates" [] (list? (AggregateRequest.ofTree? o))⟩

end Stage

namespace Query

/-- A query as it is written. -/
def toValue (q : Query) : Value :=
  .object [("source", .string q.source), ("stages", listed Stage.toValue q.stages)]

/-- A query as it is read. -/
def ofTree? (o : Origin) (t : Tree) : Option Query := do
  let ms ← members? ["source", "stages"] o t
  return ⟨← ms.required "source" string?, ← ms.required "stages" (list? (Stage.ofTree? o))⟩

end Query

namespace Request

/-- The form whose text is hashed. -/
def toValue (r : Request) : Value :=
  .object [("source", .string r.source), ("group_by", listed Path.toValue r.groupBy),
    ("aggregates", listed AggregateRequest.toValue r.aggregates)]

/-- A request as it is read: the members of its stage stand beside the source. -/
def ofTree? (o : Origin) (t : Tree) : Option Request := do
  let ms ← members? ["source", "group_by", "aggregates"] o t
  return ⟨← ms.required "source" string?, ← ms.withDefault "group_by" [] (list? Path.ofTree?),
    ← ms.withDefault "aggregates" [] (list? (AggregateRequest.ofTree? o))⟩

end Request

/-! ## Sources and amendments -/

/-- A source with the numbers of its fields. -/
def Store.sourceValue (s : Store) (source : Source) : Value :=
  .object [("id", .int source.id), ("name", .string source.name),
    ("fields", listed (fun f => .int f.id) (s.fieldsOf source.id)),
    ("primary_key", orNull .string source.primaryKey),
    ("query", orNull Query.toValue source.query)]

namespace Amendment

/-- An amendment as it is written. -/
def toValue (a : Amendment) : Value :=
  .object [("kind", .string "add_field"), ("owner", .string a.owner), ("field", a.field.toValue)]

/-- An amendment, told by the tag `kind`. -/
def ofTree? (o : Origin) (t : Tree) : Option Amendment := do
  let (tag, content) ← tagged? "kind" t
  let _ ← tag? o [("add_field", ())] tag
  let ms ← members? ["owner", "field"] o.inTagged content
  return ⟨← ms.required "owner" string?, ← ms.required "field" (FieldDef.ofTree? o.inTagged)⟩

end Amendment

end Joinery
