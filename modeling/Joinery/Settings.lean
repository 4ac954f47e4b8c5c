/-
Settings: how much is logged, whether plans are cached, and where the model is.

The path of the model may refer to variables. `pieces` cuts it into characters
and references in one pass, so what a variable holds is never looked at again.
-/
import Joinery.File
import Joinery.Text.Alphanumeric

namespace Joinery

/-- What a settings file says. -/
structure Settings where
  /-- Which messages are logged. -/
  logFilter : String
  planCache : Bool
  /-- Where the model document is, with references to variables. -/
  modelPath : Option String
  deriving DecidableEq

/-- Why there are no settings, or no path of the model. -/
inductive SettingsError where
  | fileNotFound (path : String)
  | unreadable (problem : ReadProblem)
  | invalidToml
  | missingVariable (name : String)
  | unterminatedReference (text : String)
  deriving DecidableEq

/-- What is said of the error. -/
def SettingsError.message : SettingsError → String
  | .fileNotFound path => s!"Config file not found: {path}"
  | .unreadable problem => s!"Failed to read config file: {problem.message}"
  | .invalidToml => "Failed to parse config file: not settings"
  | .missingVariable name => s!"Missing environment variable: {name}"
  | .unterminatedReference text => s!"Unterminated variable reference in '{text}'"

/-! ## References -/

/-- A part of a text with references. -/
inductive Piece where
  | char (c : Char)
  | variable (name : String)
  /-- A reference whose closing brace is missing. -/
  | unterminated
  deriving DecidableEq

/-- Where the reader of a text with references stands. -/
inductive Scan where
  | outside
  /-- Behind a dollar sign. -/
  | dollar
  /-- In a name without braces, which is given from its end. -/
  | bare (name : List Char)
  /-- In a name with braces, which is given from its end. -/
  | braced (name : List Char)

/-- A character of a name without braces. -/
def isNameChar (c : Char) : Bool := Text.isAlphanumeric c || c == '_'

/-- The piece of a reference. One without a name is a dollar sign. -/
def reference (name : List Char) : Piece :=
  if name.isEmpty then .char '$' else .variable (String.ofList name.reverse)

/-- A character that stands in no reference. -/
def ordinary (c : Char) : List Piece × Scan := if c = '$' then ([], .dollar) else ([.char c], .outside)

/-- One character: the pieces that it completes, and where the reader stands behind it. -/
def Scan.step : Scan → Char → List Piece × Scan
  | .outside, c => ordinary c
  | .dollar, c =>
    if c = '{' then ([], .braced [])
    else if isNameChar c then ([], .bare [c])
    else
      let (ps, next) := ordinary c
      (.char '$' :: ps, next)
  | .bare name, c =>
    if isNameChar c then ([], .bare (c :: name))
    else
      let (ps, next) := ordinary c
      (reference name :: ps, next)
  | .braced name, c =>
    if c = '}' then ([reference name], .outside) else ([], .braced (c :: name))

/-- The pieces that the end of the text completes. -/
def Scan.finish : Scan → List Piece
  | .outside => []
  | .dollar => [.char '$']
  | .bare name => [reference name]
  | .braced _ => [.unterminated]

/-- The pieces of a text, from where the reader stands. -/
def piecesFrom (scan : Scan) : List Char → List Piece
  | [] => scan.finish
  | c :: cs => (scan.step c).1 ++ piecesFrom (scan.step c).2 cs

/-- The pieces of a text with references. -/
def pieces (text : String) : List Piece := piecesFrom .outside text.toList

/-- What a piece of a text stands for. -/
def Piece.value (values : String → Option String) (text : String) :
    Piece → Except SettingsError (List Char)
  | .char c => .ok [c]
  | .variable name =>
    match values name with
    | some value => .ok value.toList
    | none => .error (.missingVariable name)
  | .unterminated => .error (.unterminatedReference text)

/-- A text with the values of its references in their places. -/
def expand (values : String → Option String) (text : String) : Except SettingsError String := do
  let parts ← (pieces text).mapM (Piece.value values text)
  return String.ofList parts.flatten

/-- The names of the variables that a text refers to. -/
def variableNames (text : String) : List String :=
  (pieces text).filterMap fun
    | .variable name => some name
    | _ => none

namespace Settings

/-- The settings where none are given. -/
def default : Settings := ⟨"info", true, none⟩

/-- The path of the model with the values of its references in their places. -/
def resolvedPath (s : Settings) (values : String → Option String) :
    Except SettingsError (Option String) :=
  match s.modelPath with
  | none => .ok none
  | some path => do return some (← expand values path)

end Settings

end Joinery
