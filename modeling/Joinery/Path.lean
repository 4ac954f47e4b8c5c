/-
Dotted paths: `alpha.gamma.total`.

A path is a list of segments. Its text has a dot between each segment and the
next; reading a text cuts it at the dots and trims the pieces, none of which may
be blank.
-/
import Joinery.Text.Blank
import Joinery.Text.Cut

namespace Joinery

/-- Why a text is no path or no aggregate. -/
inductive ParseError where
  | empty
  | emptySegment (text : String)
  | unknownOperator (name : String)
  | malformed (text : String)
  deriving DecidableEq

/-- What is said of the error. -/
def ParseError.message : ParseError → String
  | .empty => "Empty path"
  | .emptySegment text => s!"Path '{text}' contains an empty segment"
  | .unknownOperator name => s!"Unknown aggregate operator: {name}"
  | .malformed text => s!"Malformed aggregate expression: {text}"

/-- Names that lead from a source to a field: those of joins, and that of the field. -/
structure Path where
  segments : List String
  deriving DecidableEq, Inhabited

namespace Path

/-- The segments with a dot between each and the next. -/
def text (p : Path) : String :=
  String.ofList (Text.joined ['.'] (p.segments.map String.toList))

/-- The final segment. -/
def last? (p : Path) : Option String := p.segments.getLast?

/-- The path that a text writes. -/
def parse (text : String) : Except ParseError Path :=
  if (Text.trim text.toList).isEmpty then .error .empty
  else
    let segments := (Text.pieces '.' text.toList).map Text.trim
    if segments.any List.isEmpty then .error (.emptySegment text)
    else .ok ⟨segments.map String.ofList⟩

end Path

end Joinery
