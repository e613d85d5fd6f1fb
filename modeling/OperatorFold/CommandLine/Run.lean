import OperatorFold.CommandLine.Arguments
import OperatorFold.CommandLine.Files
import OperatorFold.Fold.Tree
import OperatorFold.Precedence.Load
import OperatorFold.Source.ParseError
import OperatorFold.Tree.Render

/-! # A run of the program

A run starts from a table of declarations and takes its inputs one after another: files of
declarations, source files, and the expressions of the arguments. Each input is read, its
declarations are loaded, and then its statements are folded, unless it was named for its
declarations alone. An input that cannot be read ends the run, and so does the first precedence
error where the settings say so; everything before stays. A parameter without a value breaks the run
off as soon as its value is needed, and then there is no report.
-/

namespace OperatorFold.CommandLine

/-- A text to work on, unless the parameter that should have given it has no value; `folds` says
that its statements count. -/
structure Input where
  file : String
  text : Option String
  folds : Bool
deriving DecidableEq, Inhabited

/-- A folded statement: where it stands, and its text before and after. -/
structure Result where
  file : String
  line : Option Int
  source : String
  folded : String
deriving DecidableEq, Inhabited

/-- Why a run ends before its last input. -/
inductive Ending where
  | refused (d : Diagnostic)
  | halted (h : Halt)
  | textless
deriving DecidableEq, Inhabited

/-- How far a run has come. -/
structure Progress where
  registry : Registry
  results : List Result := []
  ending : Option Ending := none
deriving Inhabited

/-- The diagnostic for an input that is no source text. -/
def parseDiagnostic (file : String) (e : Source.ParseError) : Diagnostic where
  message := "parse error: " ++ e.message
  code := some "parseError"
  phase := some "parser"
  span := { file := some file, line := some e.place.line, column := some e.place.column }

/-- The diagnostic for a file that cannot be read. -/
def fileDiagnostic (path : String) (e : FileError) : Diagnostic where
  message := e.message path
  code := some "io"
  phase := some "driver"

/-- The result of a statement, with the fold either as it stands or with every operation in
parentheses. -/
def Result.ofFold (parenthesize : Bool) (file : String) (statement folded : Node) :
    Except Fault Result := do
  let text ← if parenthesize then folded.renderGrouped else folded.render
  let source ← statement.render
  pure { file, line := (Source.spanOf statement).line, source, folded := text }

namespace Progress

/-- Folds statements one after another. -/
def foldStatements (parenthesize : Bool) (file : String) (p : Progress) :
    List Node → Reporting Progress
  | [] => pure p
  | statement :: rest => do
    match ← (p.registry.foldTree statement).attempt with
    | .error h => pure { p with ending := some (.halted h) }
    | .ok folded =>
      match Result.ofFold parenthesize file statement folded.node with
      | .error f => pure { p with ending := some (.halted (.fault f)) }
      | .ok result =>
        foldStatements parenthesize file { p with results := p.results ++ [result] } rest

/-- Takes one source text: loads its declarations and, if it `folds`, folds its statements. -/
def takeText (parenthesize : Bool) (p : Progress) (file text : String) (folds : Bool) :
    Reporting Progress :=
  match Source.parseSource text (some file) with
  | .error e => pure { p with ending := some (.refused (parseDiagnostic file e)) }
  | .ok source => do
    .log (.parsed file source.items.length)
    let loaded ← p.registry.load source.items
    let p := { p with registry := loaded.registry, ending := loaded.ended.map .halted }
    if p.ending.isNone && folds then p.foldStatements parenthesize file source.statements
    else pure p

/-- Takes one input. -/
def takeInput (parenthesize : Bool) (p : Progress) (i : Input) : Reporting Progress :=
  match i.text with
  | none => pure { p with ending := some .textless }
  | some text => p.takeText parenthesize i.file text i.folds

/-- Takes inputs one after another, up to one that ends the run. -/
def takeInputs (parenthesize : Bool) (p : Progress) : List Input → Reporting Progress
  | [] => pure p
  | i :: rest => do
    let p ← p.takeInput parenthesize i
    if p.ending.isSome then pure p else takeInputs parenthesize p rest

end Progress

/-! ## The inputs -/

/-- Why a run has no report. -/
inductive RunError where
  /-- The value of a parameter is needed and there is none. -/
  | valueless (p : Parameter)
  /-- No file can have a name with a null character. -/
  | nullInName (path : String)
  /-- The bytes of a file are no text. -/
  | undecodable (path : String)
deriving DecidableEq, Inhabited

/-- The message of an error without a report. -/
def RunError.message : RunError → String
  | valueless p => s!"argument {(Opt.parameter p).label}: no value"
  | nullInName path => s!"null character in {Text.quoted path}"
  | undecodable path => s!"{Text.quoted path} is not UTF-8"

/-- Why the inputs are not complete. -/
inductive InputError where
  | unreadable (path : String) (e : FileError)
  | broken (e : RunError)
deriving DecidableEq, Inhabited

/-- The text of a file. -/
def readText (files : Files) (path : String) : Except InputError String :=
  if path.toList.contains '\x00' then .error (.broken (.nullInName path))
  else
    match files path with
    | .unreadable e => .error (.unreadable path e)
    | .undecodable => .error (.broken (.undecodable path))
    | .text text => .ok text

/-- Why a file is not read as a source: its text cannot be had, or it is refused. -/
inductive FileParseError where
  | unreadable (e : InputError)
  | refused (e : Source.ParseError)
deriving DecidableEq, Inhabited

/-- Reads the source file of a name. The written form of the name is the file in all spans. -/
def parseFile (files : Files) (name : String) : Except FileParseError Source.SourceFile := do
  let path := normalizePath name
  let text ← (readText files path).mapError .unreadable
  (Source.parseSource text (some path)).mapError .refused

/-- Reads files in order, up to the first that cannot be read. -/
def readFiles (files : Files) (folds : Bool) : List String → Except InputError (List Input)
  | [] => .ok []
  | path :: rest => do
    let text ← readText files path
    let others ← readFiles files folds rest
    pure ({ file := path, text := some text, folds } :: others)

/-- Reads the files of declarations in order, up to the first that cannot be read or has no
name. -/
def readDeclarations (files : Files) : List (Option String) → Except InputError (List Input)
  | [] => .ok []
  | none :: _ => .error (.broken (.valueless .declarations))
  | some path :: rest => do
    let text ← readText files path
    let others ← readDeclarations files rest
    pure ({ file := path, text := some text, folds := false } :: others)

/-- The expressions of the arguments as inputs, named by their numbers from one on. -/
def expressionInputs (expressions : List (Option String)) : List Input :=
  expressions.zipIdx.map fun (text, i) => { file := s!"<expr:{i + 1}>", text, folds := true }

/-- All inputs of a run, in the order in which they are taken. -/
def Settings.inputs (s : Settings) (files : Files) : Except InputError (List Input) := do
  let declarations ← readDeclarations files s.declarations
  let sources ← readFiles files true s.sources
  pure (declarations ++ sources ++ expressionInputs s.expressions)

/-! ## The report -/

/-- What a run has brought. -/
structure Report where
  exitCode : Nat
  results : List Result
  diagnostics : List Diagnostic
  log : List LogEvent
deriving Inhabited

/-- The exit code of a run that ended in some way: two where an input was refused, one where an
error was reported, zero otherwise. -/
def exitCodeOf (ending : Option Ending) (errors : List PrecedenceError) : Nat :=
  match ending with
  | some (.refused _) => 2
  | some (.halted _) | some .textless => 1
  | none => if errors.isEmpty then 0 else 1

/-- The report of a run. -/
def Report.ofRun (result : Except Halt Progress) (journal : Journal) : Report :=
  let (results, ending) := match result with
    | .ok p => (p.results, p.ending)
    | .error h => ([], some (.halted h))
  let refusal := match ending with
    | some (.refused d) => [d]
    | _ => []
  { exitCode := exitCodeOf ending journal.errors
    results
    diagnostics := journal.errors.map (·.diagnostic) ++ refusal
    log := journal.log }

/-- The computation of a run: the table of declarations is loaded before anything else. -/
def Settings.process (s : Settings) (preset : Preset)
    (inputs : Except (String × FileError) (List Input)) : Reporting Progress := do
  let registry ← preset.registry
  match inputs with
  | .error (path, e) =>
    pure { registry, ending := some (.refused (fileDiagnostic path e)) }
  | .ok inputs => ({ registry } : Progress).takeInputs s.parenthesize inputs

/-- Runs the program. -/
def Settings.run (s : Settings) (files : Files) : Except RunError Report := do
  let preset ← match s.preset with
    | some preset => .ok preset
    | none => .error (.valueless .preset)
  let inputs ← match s.inputs files with
    | .ok inputs => .ok (.ok inputs)
    | .error (.unreadable path e) => .ok (.error (path, e))
    | .error (.broken e) => .error e
  let limit := if s.failFast then some 1 else none
  match (s.process preset inputs).run limit with
  | (.ok ⟨_, _, some .textless⟩, _) => .error (.valueless .expression)
  | (result, journal) => pure (.ofRun result journal)

end OperatorFold.CommandLine
