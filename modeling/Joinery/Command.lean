/-
The command line: compile a request, run it, or show the join graph.

Arguments are read before anything else is done, and whatever is wrong with them
is a usage error. The option `--config` may stand in front of the command or
behind it, where it counts for more.
-/
import Joinery.Form.Document
import Joinery.Form.Plan
import Joinery.Form.Settings
import Joinery.Graph
import Joinery.Session

namespace Joinery.Command

/-! ## Arguments -/

/-- How a compiled plan is printed. -/
inductive PlanFormat where
  | explain
  | json
  deriving DecidableEq

/-- How the rows of a result are printed. -/
inductive RowFormat where
  | table
  | json
  deriving DecidableEq

/-- The model to ask, and the request as texts. -/
structure Question where
  model : Option String
  source : String
  groupBy : List String
  aggregates : List String
  deriving DecidableEq

/-- What a command does. -/
inductive Action where
  | compile (question : Question) (format : PlanFormat)
  | run (question : Question) (format : RowFormat)
  | graph (model : Option String)
  deriving DecidableEq

/-- What a command line asks for. -/
structure Arguments where
  config : Option String
  action : Action
  deriving DecidableEq

/-- An option. Every option takes a value. -/
structure Flag where
  name : String
  letter : Option Char

/-- Where the settings are. -/
def configFlag : Flag := ⟨"config", none⟩

/-- Where the model document is. -/
def modelFlag : Flag := ⟨"model", some 'm'⟩

/-- The options of a command that asks a question. -/
def questionFlags : List Flag :=
  [configFlag, modelFlag, ⟨"from", none⟩, ⟨"group-by", some 'g'⟩, ⟨"aggregate", some 'a'⟩,
    ⟨"format", some 'f'⟩]

/-- The options that are given, by their names, with their values. -/
abbrev Given := List (String × String)

/-- Does an argument look like an option? Then it is no value. -/
def looksLikeFlag : List Char → Bool
  | '-' :: _ :: _ => true
  | _ => false

/-- The option that an argument names, and the value that is attached to it. -/
def flag? (flags : List Flag) : List Char → Option (String × Option String)
  | '-' :: '-' :: cs => do
    let name := cs.takeWhile (· != '=')
    let flag ← flags.find? (·.name.toList == name)
    return (flag.name, match cs.drop name.length with
      | [] => none
      | _ :: value => some (String.ofList value))
  | '-' :: c :: cs => do
    let flag ← flags.find? (·.letter == some c)
    return (flag.name, match cs with
      | [] => none
      | '=' :: value => some (String.ofList value)
      | value => some (String.ofList value))
  | _ => none

/-- The options behind a command. Two hyphens may end them, and nothing else may stand there. -/
def given? (flags : List Flag) : List String → Option Given
  | [] => some []
  | arg :: args =>
    if arg = "--" then (if args.isEmpty then some [] else none)
    else
      match flag? flags arg.toList, args with
      | some (name, some value), args => (given? flags args).map ((name, value) :: ·)
      | some (name, none), value :: args =>
        if looksLikeFlag value.toList then none
        else (given? flags args).map ((name, value) :: ·)
      | _, _ => none

/-- The options in front of a command, the command, and what follows it. -/
def command? : List String → Option (Given × String × List String)
  | [] => none
  | arg :: args =>
    if ["compile", "run", "graph"].contains arg then some ([], arg, args)
    else
      match flag? [configFlag] arg.toList, args with
      | some (name, some value), args =>
        (command? args).map fun (given, rest) => ((name, value) :: given, rest)
      | some (name, none), value :: args =>
        if looksLikeFlag value.toList then none
        else (command? args).map fun (given, rest) => ((name, value) :: given, rest)
      | _, _ => none

namespace Given

/-- The values of an option, in order. -/
def values (given : Given) (name : String) : List String :=
  (given.filter (·.1 == name)).map (·.2)

/-- The value of an option that may stand once. -/
def single? (given : Given) (name : String) : Option (Option String) :=
  match given.values name with
  | [] => some none
  | [value] => some (some value)
  | _ => none

/-- The value of an option that may stand once and names a file: it is not empty. -/
def file? (given : Given) (name : String) : Option (Option String) := do
  let value ← given.single? name
  if value = some "" then none else some value

/-- The value of an option that names one of some choices. -/
def choice? {α : Type} (given : Given) (name : String) (default : α) (choices : List (String × α)) :
    Option α := do
  match ← given.single? name with
  | none => return default
  | some value => (choices.find? (·.1 == value)).map (·.2)

/-- The question of the options: a source is asked for, and a model file may be named. -/
def question? (given : Given) : Option Question := do
  return { model := ← given.file? "model"
           source := ← (← given.single? "from")
           groupBy := given.values "group-by"
           aggregates := given.values "aggregate" }

end Given

/-- A command with its options, and the file of settings that they name. -/
def action? (command : String) (args : List String) : Option (Option String × Action) :=
  if command = "graph" then do
    let given ← given? [configFlag, modelFlag] args
    return (← given.file? "config", .graph (← given.file? "model"))
  else do
    let given ← given? questionFlags args
    let question ← given.question?
    let config ← given.file? "config"
    if command = "compile" then
      let format ← given.choice? "format" .explain [("explain", .explain), ("json", .json)]
      return (config, .compile question format)
    else
      let format ← given.choice? "format" .table [("table", .table), ("json", .json)]
      return (config, .run question format)

/-- The arguments of the program, unless they are a usage error. -/
def arguments? (args : List String) : Option Arguments := do
  let (outer, command, rest) ← command? args
  let outerConfig ← outer.file? "config"
  let (config, action) ← action? command rest
  return ⟨config <|> outerConfig, action⟩

/-! ## Failures -/

/-- Why a command fails. -/
inductive Failure where
  | settings (cause : SettingsError)
  | modelPath (cause : SettingsError)
  | noModel
  | loading (path : String) (cause : LoadError)
  | building (cause : LoadError)
  | tables (cause : ExecutionError)
  | request (cause : ParseError)
  | compiling (cause : CompileError)
  | running (cause : ExecutionError)
  deriving DecidableEq

/-- What is printed of a failure. -/
def Failure.message : Failure → String
  | .settings cause => s!"Error loading settings: {cause.message}"
  | .modelPath cause => s!"Error in settings: {cause.message}"
  | .noModel => "No model given; pass --model or set [model] path in skein.toml"
  | .loading path cause => s!"Error loading model '{path}': {cause.message}"
  | .building cause => s!"Error building model: {cause.message}"
  | .tables cause => s!"Error loading tables: {cause.message}"
  | .request cause => s!"Invalid query: {cause.message}"
  | .compiling cause => s!"Compilation error: {cause.message}"
  | .running cause => s!"Query failed: {cause.message}"

/-! ## Actions on a document -/

/-- Each line with a line end behind it. -/
def linesText (lines : List String) : String := String.join (lines.map (· ++ "\n"))

/-- The request of a question. -/
def request (q : Question) : Except Failure Request :=
  (Request.parse q.source q.groupBy q.aggregates).mapError .request

/-- The store of a document. -/
def build (d : Document) : Except Failure Store := d.build.mapError .building

/-- The plan of a question, as lines or as a document. -/
def compile (planCache : Bool) (d : Document) (q : Question) (format : PlanFormat) :
    Except Failure String := do
  let session := Session.ofStore (← build d) planCache
  let (compiled, _) ← (session.compile (← request q)).mapError .compiling
  match format with
  | .explain => return compiled.plan.explain
  | .json => return linesText [compiled.plan.toValue.indentedText]

/-- The rows as lines of cells with tabs between them, below the names of the columns. -/
def tableText (r : Result) : String :=
  linesText (("\t".intercalate r.columns) :: r.rows.map fun row =>
    "\t".intercalate (row.map Json.Value.text))

/-- The result of a question over the tables of the document. -/
def run (planCache : Bool) (d : Document) (q : Question) (format : RowFormat) :
    Except Failure String := do
  let session := Session.ofStore (← build d) planCache
  let tables ← (Tables.ofList d.tables).mapError .tables
  let (result, _) := session.run tables (← request q)
  let result ← result.mapError .running
  match format with
  | .table => return tableText result
  | .json => return linesText [result.objects.indentedText]

/-- The sizes of a join graph, its joins, and, if there are any, its cycles and what dangles. -/
def graphLines (s : Store) (g : JoinGraph) : List String :=
  let joins := s.sources.flatMap fun source =>
    (g.joinsFrom source.id).map fun (name, target) => s!"  - {source.name}.{name} -> {target}"
  let cycles := g.cycleGroups.map fun group => "  - " ++ ", ".intercalate group
  let dangling := g.dangling.map fun d => s!"  - {d.owner}.{d.field} -> {d.target} (undefined)"
  [s!"Sources: {g.nodes.length}, joins: {g.edges.length}", "", "Joins:"] ++ joins ++
    (if cycles.isEmpty then [] else "" :: "Cycles:" :: cycles) ++
    (if dangling.isEmpty then [] else "" :: "Dangling joins:" :: dangling)

/-- What the joins of a document connect. -/
def graph (d : Document) : Except Failure String := do
  let s ← build d
  return linesText (graphLines s s.graph)

/-! ## On a host -/

section
variable {m : Type → Type} [Monad m]

/-- Where the model is: where the arguments say, or else the settings. -/
def modelPath (host : Host m) (settings : Settings) (model : Option String) :
    m (Except Failure String) := do
  match model with
  | some path => return .ok path
  | none =>
    let names := variableNames (settings.modelPath.getD "")
    let found ← names.mapM fun name => do return (name, ← host.valueOf name)
    let values (name : String) : Option String := (found.find? (·.1 == name)).bind (·.2)
    match settings.resolvedPath values with
    | .error cause => return .error (.modelPath cause)
    | .ok none => return .error .noModel
    | .ok (some path) => return .ok path

/-- The model document, wherever the option or the settings say it is. -/
def document (host : Host m) (settings : Settings) (model : Option String) :
    m (Except Failure Document) := do
  match ← modelPath host settings model with
  | .error e => return .error e
  | .ok path => return (Document.ofFile path (← host.file path)).mapError (.loading path)

/-- What the program prints for its arguments, or why it fails. -/
def perform (host : Host m) (args : Arguments) : m (Except Failure String) := do
  match ← Settings.load host args.config with
  | .error cause => return .error (.settings cause)
  | .ok settings =>
    match args.action with
    | .compile q format =>
      return (← document host settings q.model).bind fun d => compile settings.planCache d q format
    | .run q format =>
      return (← document host settings q.model).bind fun d => run settings.planCache d q format
    | .graph model => return (← document host settings model).bind graph

end

end Joinery.Command
