/-
The written form of a document, and the files of its two text formats.

Every list of a document may be left out. A field declaration leaves out what it
does not have; a source declaration writes null for it.
-/
import Joinery.Document
import Joinery.Form.Model
import Joinery.Json.Reader
import Joinery.Toml

namespace Joinery

open Json

namespace FieldDecl

/-- A declared field as a document writes it. -/
def toValue (d : FieldDecl) : Value :=
  .object (("name", .string d.name) :: ifPresent "join" Join.toValue d.join ++
    ifPresent "aggregate" Aggregate.toValue d.aggregate)

/-- A declared field as a document reads it. -/
def ofTree? (o : Origin) (t : Tree) : Option FieldDecl := do
  let ms ← members? ["name", "join", "aggregate"] o t
  return ⟨← ms.required "name" string?, ← ms.optional "join" (Join.ofTree? o),
    ← ms.optional "aggregate" (Aggregate.ofTree? o)⟩

end FieldDecl

namespace SourceDecl

/-- A declared source as a document writes it. -/
def toValue (d : SourceDecl) : Value :=
  .object [("name", .string d.name), ("fields", listed FieldDecl.toValue d.fields),
    ("primary_key", orNull .string d.primaryKey), ("query", orNull Query.toValue d.query)]

/-- A declared source as a document reads it. -/
def ofTree? (o : Origin) (t : Tree) : Option SourceDecl := do
  let ms ← members? ["name", "fields", "primary_key", "query"] o t
  return ⟨← ms.required "name" string?,
    ← ms.withDefault "fields" [] (list? (FieldDecl.ofTree? o)),
    ← ms.optional "primary_key" string?, ← ms.optional "query" (Query.ofTree? o)⟩

end SourceDecl

namespace AmendmentDecl

/-- An amendment as a document writes it. -/
def toValue (d : AmendmentDecl) : Value :=
  .object [("owner", .string d.owner), ("field", d.field.toValue)]

/-- An amendment as a document reads it. -/
def ofTree? (o : Origin) (t : Tree) : Option AmendmentDecl := do
  let ms ← members? ["owner", "field"] o t
  return ⟨← ms.required "owner" string?, ← ms.required "field" (FieldDecl.ofTree? o)⟩

end AmendmentDecl

namespace Relation

/-- A table as a document writes it. -/
def toValue (r : Relation) : Value :=
  .object [("name", .string r.name), ("columns", listed .string r.columns),
    ("rows", listed .array r.rows)]

/-- A table as a document reads it; without rows it is empty. -/
def ofTree? (o : Origin) (t : Tree) : Option Relation := do
  let ms ← members? ["name", "columns", "rows"] o t
  return ⟨← ms.required "name" string?, ← ms.required "columns" (list? string?),
    ← ms.withDefault "rows" [] (list? (list? Tree.value?))⟩

end Relation

namespace Document

/-- A whole document as it is written. -/
def toValue (d : Document) : Value :=
  .object [("sources", listed SourceDecl.toValue d.sources),
    ("amendments", listed AmendmentDecl.toValue d.amendments),
    ("tables", listed Relation.toValue d.tables)]

/-- A whole document as it is read; each of its lists may be left out. -/
def ofTree? (o : Origin) (t : Tree) : Option Document := do
  let ms ← members? ["sources", "amendments", "tables"] o t
  return ⟨← ms.withDefault "sources" [] (list? (SourceDecl.ofTree? o)),
    ← ms.withDefault "amendments" [] (list? (AmendmentDecl.ofTree? o)),
    ← ms.withDefault "tables" [] (list? (Relation.ofTree? o))⟩

/-- The document of a JSON text. -/
def ofJson (text : String) : Except LoadError Document :=
  match (Tree.ofText? text).bind (ofTree? .json) with
  | some d => .ok d
  | none => .error .invalidJson

/-- The document of a TOML text. -/
def ofToml (text : String) : Except LoadError Document :=
  match (Toml.read? text).bind (ofTree? .toml) with
  | some d => .ok d
  | none => .error .invalidToml

/-- What the file at a path says. Its format is told by the extension of its name, which is looked
at once the file has been read. -/
def ofFile (path : String) : FileState → Except LoadError Document
  | .missing => .error (.fileNotFound path)
  | .unreadable problem => .error (.unreadable problem)
  | .text content =>
    let ending := extension path
    if ending = "toml" then ofToml content
    else if ending = "json" then ofJson content
    else .error (.unsupportedExtension ending)

end Document

end Joinery
