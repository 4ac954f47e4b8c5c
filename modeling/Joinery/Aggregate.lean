/-
Aggregates: the operators, definitions of aggregates on a source, and requests
for one.

A request is written `count()`, `sum(amount)` or `gamma.total`, each perhaps
after a name of its own: `total is count()`. Its text reads back as the same
request, unless its name ends in ` is`.
-/
import Joinery.Path

namespace Joinery

/-- What an aggregate makes of the rows or cells of its group. -/
inductive Operator where
  | count
  | countDistinct
  | sum
  | avg
  | min
  | max
  deriving DecidableEq

namespace Operator

/-- The operators, each once. -/
def all : List Operator := [.count, .countDistinct, .sum, .avg, .min, .max]

/-- The name of an operator, as requests and documents write it. -/
def name : Operator → String
  | .count => "count"
  | .countDistinct => "count_distinct"
  | .sum => "sum"
  | .avg => "avg"
  | .min => "min"
  | .max => "max"

/-- The operator of a name. -/
def ofName? (name : String) : Option Operator := all.find? (·.name == name)

/-- Does the operator mean something without an argument? Only rows can be counted without one. -/
def allowsNoArgument (op : Operator) : Bool := op == .count

/-- The operator that a text names, in upper or lower case of ASCII and with blanks around it. -/
def parse (text : String) : Except ParseError Operator :=
  let name := String.ofList ((Text.trim text.toList).map Char.toLower)
  match ofName? name with
  | some op => .ok op
  | none => .error (.unknownOperator name)

theorem ofName?_name (op : Operator) : ofName? op.name = some op := by cases op <;> decide

end Operator

/-- An aggregate that is defined on a source, over a path from that source. -/
structure Aggregate where
  op : Operator
  path : Option Path
  deriving DecidableEq

/-- A request for an aggregate: with an operator it is applied to the path, or to the rows; without
one the path leads to a defined aggregate. -/
structure AggregateRequest where
  name : Option String
  op : Option Operator
  path : Option Path
  deriving DecidableEq

namespace AggregateRequest

/-- The name of the output column: the given name, else the end of the path, else the operator. -/
def outputName (r : AggregateRequest) : String :=
  match r.name, r.path.bind Path.last? with
  | some name, _ => name
  | none, some last => last
  | none, none => (r.op.getD .count).name

/-- The text without the name. -/
def expression (r : AggregateRequest) : String :=
  match r.op, r.path with
  | some op, some path => s!"{op.name}({path.text})"
  | some op, none => s!"{op.name}()"
  | none, some path => path.text
  | none, none => "<empty>"

/-- The text of a request: its name, if it has one, and its expression. -/
def text (r : AggregateRequest) : String :=
  match r.name with
  | some name => s!"{name} is {r.expression}"
  | none => r.expression

/-- What stands after the name: a path, or an operator with its argument in brackets. `whole` is
the text that a malformed expression is reported with. -/
def parseExpression (whole : String) (expression : List Char) :
    Except ParseError (Option Operator × Option Path) :=
  match Text.cutAt ['('] expression with
  | none => do return (none, some (← Path.parse (String.ofList expression)))
  | some (operator, rest) =>
    if rest.getLast? = some ')' then do
      let argument := Text.trim rest.dropLast
      let op ← Operator.parse (String.ofList operator)
      if argument.isEmpty then return (some op, none)
      else return (some op, some (← Path.parse (String.ofList argument)))
    else .error (.malformed whole)

/-- The request that a text writes. -/
def parse (text : String) : Except ParseError AggregateRequest :=
  match Text.cutAt [' ', 'i', 's', ' '] text.toList with
  | some (name, rest) => do
    let (op, path) ← parseExpression text (Text.trim rest)
    return ⟨some (String.ofList (Text.trim name)), op, path⟩
  | none => do
    let (op, path) ← parseExpression text (Text.trim text.toList)
    return ⟨none, op, path⟩

end AggregateRequest

end Joinery
