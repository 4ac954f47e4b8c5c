/-
The written form of settings, and where they are found: in a file that is asked
for, else in the file that a variable names, else in a file of a fixed name.
-/
import Joinery.Json.Record
import Joinery.Form.Model
import Joinery.Settings
import Joinery.Toml

namespace Joinery.Settings

open Json

/-- Settings as they are written, section by section. -/
def toValue (s : Settings) : Value :=
  .object [("logging", .object [("filter", .string s.logFilter)]),
    ("compiler", .object [("plan_cache", .bool s.planCache)]),
    ("model", .object [("path", orNull .string s.modelPath)])]

/-- A section of one member, or its default. -/
def section? {α : Type} (o : Origin) (name : String) (default : α) (read : Tree → Option α)
    (t : Tree) : Option α := do
  (← members? [name] o t).withDefault name default read

/-- A member that is null or of a type. -/
def nullable? {α : Type} (read : Tree → Option α) : Tree → Option (Option α)
  | .null => some none
  | t => (read t).map some

/-- Settings as they are read: what is left out has its default. -/
def ofTree? (o : Origin) (t : Tree) : Option Settings := do
  let ms ← members? ["logging", "compiler", "model"] o t
  return ⟨← ms.withDefault "logging" default.logFilter (section? o "filter" default.logFilter string?),
    ← ms.withDefault "compiler" default.planCache (section? o "plan_cache" default.planCache bool?),
    ← ms.withDefault "model" default.modelPath
      (section? o "path" default.modelPath (nullable? string?))⟩

/-- The settings of a TOML text. -/
def ofToml (text : String) : Except SettingsError Settings :=
  match (Toml.read? text).bind (ofTree? .toml) with
  | some s => .ok s
  | none => .error .invalidToml

/-- What the file at a path says. -/
def ofFile (path : String) : FileState → Except SettingsError Settings
  | .missing => .error (.fileNotFound path)
  | .unreadable problem => .error (.unreadable problem)
  | .text content => ofToml content

/-- The variable that names a file of settings. -/
def fileVariable : String := "SKEIN_CONFIG"

/-- The file of settings that is looked for where no other is named. It may be missing. -/
def localFile : String := "skein.toml"

/-- The settings of a host, from the file at `path` if one is asked for. -/
def load {m : Type → Type} [Monad m] (host : Host m) (path : Option String) :
    m (Except SettingsError Settings) := do
  match path with
  | some path => return ofFile path (← host.file path)
  | none =>
    match ← host.valueOf fileVariable with
    | some path => return ofFile path (← host.file path)
    | none =>
      match ← host.file localFile with
      | .missing => return .ok default
      | state => return ofFile localFile state

end Joinery.Settings
