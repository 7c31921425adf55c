import RCode.Expansion
import RCode.Survey

/-!
# The workbench

The workbench reads, surveys, expands and evaluates code under one group of settings. It collects
warnings, which outlive the task that gave them, also if that task fails. If it is verbose it writes
down what it does.
-/

set_option autoImplicit false

namespace RCode.Workbench

/-- The settings of a workbench. -/
structure Settings where
  verbose : Bool := false
  markers : Markers := {}
  /-- The names whose use gives warnings. -/
  deprecated : List String := Deprecation.aliases
  /-- The name of texts that are given without one. -/
  sourceName : String := "<input>"
  /-- The functions that calls name count as global names. -/
  withFunctions : Bool := true
  /-- What names mean in marked and evaluated code. -/
  context : Context := Context.base
  /-- What evaluation gets from outside. -/
  host : Host

/-- What a workbench has written down. -/
structure Journal where
  warnings : List String := []
  log : List String := []

/-- Why a task fails. -/
inductive TaskError where
  | source (name : String) (e : SourceError)
  | expansion (e : ExpansionError)
  | evaluation (e : EvalError)
  | node (e : NodeError)
  | noSuchFile (path : String)

/-- A task under the settings; the journal is kept when it fails. -/
abbrev Task := ReaderT Settings (ExceptT TaskError (StateM Journal))

namespace Task

/-- Runs a task. -/
def perform {α : Type} (task : Task α) (s : Settings) (j : Journal) :
    Except TaskError α × Journal :=
  Id.run (StateT.run (ExceptT.run (ReaderT.run task s)) j)

/-- The result of a step, whose errors are errors of the task. -/
def ofExcept {ε α : Type} (error : ε → TaskError) (x : Except ε α) : Task α :=
  match x with
  | .ok a => pure a
  | .error e => throw (error e)

end Task

/-- Writes lines down if the workbench is verbose. -/
def write (lines : List String) : Task Unit := do
  if (← read).verbose then
    modify fun j => { j with log := j.log ++ lines.flatMap fun l => l.splitOn "\n" }

/-- Writes down what the workbench does. -/
def log (message : String) : Task Unit :=
  write ["[rexpr] " ++ message]

/-- Gives a warning with a code. -/
def warn (code message : String) : Task Unit := do
  let warning := code ++ ": " ++ message
  modify fun j => { j with warnings := j.warnings ++ [warning] }
  log ("Warning: " ++ warning)

/-- The name of a text: the given one, or that of the settings if it is missing or empty. -/
def nameOr (name : Option String) : Task String := do
  return (name.filter (· ≠ "")).getD (← read).sourceName

/-! ## Texts and trees -/

/-- The trees of a text. -/
def parse (text : String) (name : Option String) : Task (List Node) := do
  let source : Source := ⟨text, ← nameOr name⟩
  log ("Lexing " ++ source.name ++ "...")
  let t ← Task.ofExcept (.source source.name) source.tokens
  log ("  " ++ toString (t.tokens.length + 1) ++ " tokens")
  let nodes ← Task.ofExcept (.source source.name) (Source.programOf t)
  log ("  " ++ toString nodes.length ++ " expression(s)")
  return nodes

/-- The tree of a text that is one expression. -/
def parseExpression (text : String) (name : Option String) : Task Node := do
  let source : Source := ⟨text, ← nameOr name⟩
  Task.ofExcept (.source source.name) source.expression

/-- The trees of a file. -/
def parseFile (files : List (Entry String)) (path : String) : Task (List Node) := do
  log ("Reading " ++ path ++ "...")
  match Entry.find? files path with
  | some content => parse (Source.ofFile path content).text (some path)
  | none => throw (.noSuchFile path)

/-- The text parsed and rendered, which drops comments and settles the layout. -/
def reformat (text : String) : Task String := do
  return Node.renderProgram (← parse text none)

/-- Whether the text of a tree reads back as the same tree; a warning if not. -/
def checkRoundTrip (n : Node) : Task Bool := do
  let source : Source := ⟨n.render, "<render>"⟩
  let same := (← Task.ofExcept (.source source.name) source.expression).same n
  if !same then warn "RX0201" ("rendering is lossy: " ++ source.text)
  return same

/-! ## Analysis -/

/-- What is to be analysed. -/
inductive Program where
  | text (text : String)
  | trees (nodes : List Node)

/-- The results of an analysis. -/
structure Report where
  expressions : Nat
  assignments : List String
  globals : List String
  deprecated : List Node

/-- Analyses a program. Every use of a deprecated name gives a warning with its place. -/
def analyze (program : Program) (name : Option String) : Task Report := do
  let name ← nameOr name
  let nodes ←
    match program with
    | .text text => parse text (some name)
    | .trees nodes => pure nodes
  log ("Analysing " ++ toString nodes.length ++ " expression(s)...")
  let deprecated := Survey.Deprecated.ofProgram (← read).deprecated nodes
  write deprecated.lines
  for n in deprecated.found do
    warn "RX0101" (Deprecation.warning name (n.name?.getD "") n.position)
  let assigned := Survey.Assigned.ofProgram nodes
  write assigned.lines
  let globals ← Task.ofExcept .node (Survey.Globals.ofProgram (← read).withFunctions nodes)
  write globals.lines
  return ⟨nodes.length, assigned.names, globals.names, deprecated.found⟩

/-- Analyses a file; warnings name it. -/
def analyzeFile (files : List (Entry String)) (path : String) : Task Report := do
  analyze (.trees (← parseFile files path)) (some path)

/-! ## Expansion and evaluation -/

/-- One expression. -/
inductive Expression where
  | text (text : String)
  | tree (n : Node)

/-- The tree of an expression. -/
def Expression.node : Expression → Task Node
  | .text content => parseExpression content none
  | .tree n => pure n

/-- The context of one task. -/
inductive ContextChoice where
  | ofSettings
  /-- Bindings on top of the context of the settings. -/
  | extended (bindings : Frame)
  | replaced (c : Context)

/-- The context chosen. -/
def ContextChoice.context : ContextChoice → Task Context
  | .ofSettings => return (← read).context
  | .extended bindings => return (← read).context.child bindings
  | .replaced c => pure c

/-- The tree of an expression with its markers expanded. -/
def quasiquote (e : Expression) (choice : ContextChoice) : Task Node := do
  let n ← e.node
  let c ← choice.context
  log ("Quasiquoting " ++ n.render)
  Task.ofExcept .expansion (n.expand (← read).host c (← read).markers)

/-- The value of an expression. -/
def evaluate (e : Expression) (choice : ContextChoice) : Task Value := do
  let n ← e.node
  Task.ofExcept .evaluation (n.evaluate (← read).host (← choice.context))

end RCode.Workbench
