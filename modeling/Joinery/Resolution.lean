/-
Resolving a path: from a source through joins to a field.

Every segment but the final one must name a join of the source that the walk has
reached, and leads to the join's target. The walk takes one step a segment and
keeps no record of where it has been, so it ends on any model, and a source that
it comes back to is resolved as on the first visit.
-/
import Joinery.Store

namespace Joinery

/-- Why a path does not resolve. -/
inductive ResolutionError where
  | emptyPath
  | unknownSegment (source segment : String) (position : Nat)
  /-- A segment before the final one names a field that is no join. -/
  | notAJoin (source field kind : String)
  /-- The source to start from, or the target of the join `via`, is not defined. -/
  | unknownSource (name : String) (via : Option String)
  deriving DecidableEq

/-- What is said of the error. -/
def ResolutionError.message : ResolutionError → String
  | .emptyPath => "Empty path"
  | .unknownSegment source segment position =>
    s!"Unknown field '{segment}' on source '{source}' (segment {position})"
  | .notAJoin source field kind => s!"Field '{field}' on source '{source}' is a {kind} field, not a join"
  | .unknownSource name none => s!"Unknown source '{name}'"
  | .unknownSource name (some via) => s!"Unknown source '{name}' (join target of '{via}')"

/-- Where a path leads. -/
structure Resolved where
  /-- The joins on the way, in order. -/
  joins : List Field
  /-- The source that owns the field. -/
  source : Source
  field : Field

namespace Store

/-- The field that a segment names on a source. -/
def lookup (s : Store) (here : Source) (segment : String) (position : Nat) :
    Except ResolutionError Field :=
  match s.fieldNamed? here.id segment with
  | some f => .ok f
  | none => .error (.unknownSegment here.name segment position)

/-- The source that a field leads to. -/
def follow (s : Store) (here : Source) (f : Field) : Except ResolutionError Source :=
  match f.kind.join? with
  | none => .error (.notAJoin here.name f.name f.kind.name)
  | some join =>
    match s.sourceNamed? join.target with
    | some target => .ok target
    | none => .error (.unknownSource join.target (some (s.qualifiedName f)))

/-- The walk along some segments, the first of which has the given position in its path. -/
def walk (s : Store) (here : Source) (position : Nat) : List String → Except ResolutionError Resolved
  | [] => .error .emptyPath
  | [final] => do return ⟨[], here, ← s.lookup here final position⟩
  | segment :: rest => do
    let f ← s.lookup here segment position
    let target ← s.follow here f
    let r ← s.walk target (position + 1) rest
    return { r with joins := f :: r.joins }

/-- Does a path start with the name of its start, and not with a field of that name? A path of
one segment does not. -/
def isQualified (s : Store) (start : Source) : List String → Bool
  | first :: _ :: _ => first == start.name && (s.fieldNamed? start.id first).isNone
  | _ => false

/-- Resolves a path from a source. The name of the source in front of the path is passed over. -/
def resolveFrom (s : Store) (start : Source) (path : Path) : Except ResolutionError Resolved :=
  if s.isQualified start path.segments then s.walk start 1 path.segments.tail
  else s.walk start 0 path.segments

/-- Resolves a path from the source of a name. -/
def resolve (s : Store) (start : String) (path : Path) : Except ResolutionError Resolved :=
  match s.sourceNamed? start with
  | some source => s.resolveFrom source path
  | none => .error (.unknownSource start none)

end Store

end Joinery
