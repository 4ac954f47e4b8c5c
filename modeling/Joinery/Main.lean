/-
The program: the command line on files and variables of the system.
-/
import Joinery.Command

namespace Joinery

/-- What is found at a path of the file system. -/
def fileState (path : String) : IO FileState := do
  try
    match String.fromUTF8? (← IO.FS.readBinFile path) with
    | some content => return .text content
    | none => return .unreadable .notUnicode
  catch
    | .inappropriateType none .. => return .unreadable .isDirectory
    | _ => return .missing

/-- The files and the variables of the system. -/
def systemHost : Host IO := ⟨fileState, fun name => do return ← IO.getEnv name⟩

end Joinery

open Joinery in
/-- Performs a command line: the output goes to the standard output, what went wrong to the error output. -/
def main (args : List String) : IO UInt32 := do
  match Command.arguments? args with
  | none =>
    IO.eprintln "usage: (compile | run | graph) [--config FILE] [--model FILE] [--from SOURCE] [--group-by PATH]... [--aggregate EXPRESSION]... [--format FORMAT]"
    return 2
  | some arguments =>
    match ← Command.perform systemHost arguments with
    | .ok output =>
      IO.print output
      return 0
    | .error failure =>
      IO.eprintln failure.message
      return 1
