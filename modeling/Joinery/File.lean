/-
Files and variables, as far as the program looks at them.
-/
import Joinery.Text.Cut

namespace Joinery

/-- Why a file that exists has no text. -/
inductive ReadProblem where
  | isDirectory
  | notUnicode
  deriving DecidableEq

/-- What is said of the problem. -/
def ReadProblem.message : ReadProblem → String
  | .isDirectory => "Is a directory (os error 21)"
  | .notUnicode => "stream did not contain valid UTF-8"

/-- What is found at a path. -/
inductive FileState where
  | missing
  | unreadable (problem : ReadProblem)
  | text (content : String)
  deriving DecidableEq

/-- The extension of the file that a path names: what follows the last dot of its name, or nothing
if there is no dot, or only the first character is one. -/
def extension (path : String) : String :=
  let name := ((Text.pieces '/' path.toList).getLast?).getD []
  let ending := name.reverse.takeWhile (· != '.')
  if name.length ≤ ending.length + 1 then "" else String.ofList ending.reverse

/-- Where files are found and variables are set. -/
structure Host (m : Type → Type) where
  file : String → m FileState
  valueOf : String → m (Option String)

end Joinery
