import OperatorFold.CommandLine.Path
import OperatorFold.Precedence.Standard
import OperatorFold.Text.Digits
import OperatorFold.Text.Quoted

/-! # Arguments

Reading the arguments of the program. First every argument is classified by itself, as an option, as
a plain word, or as one that looks like an option but is none (`Argument.classify`). Then they are
consumed from left to right (`Consumed.consume`): an option takes its value, attached or from the
next word, and the first run of plain words names the source files. What nothing has a use for is
refused at the end, all at once.

Readers of arguments differ over what is attached to an option. This one follows the older of them.
Two dashes are dropped wherever they stand for a value, also where they are attached to an option,
which is then left without one (`Settings.given`): `--preset=--` and `-e--` are accepted. What is
attached to a switch of one letter is read as more letters, also behind an equals sign: `-v=ex` is
`-v` and then `-e` with the value `x`. Newer readers keep the dashes as the value, and refuse the
letters behind the equals sign.
-/

namespace OperatorFold.CommandLine

/-! ## Options -/

/-- The options without a value. -/
inductive Switch where
  | help
  | failFast
  | parenthesize
  | json
  | verbose
  | logJson
deriving DecidableEq, Inhabited

/-- The options with a value. -/
inductive Parameter where
  | expression
  | preset
  | declarations
deriving DecidableEq, Inhabited

/-- An option of the program. -/
inductive Opt where
  | switch (s : Switch)
  | parameter (p : Parameter)
deriving DecidableEq, Inhabited

/-- Every spelling of every option, in the order in which they are listed. -/
def spellings : List (String × Opt) :=
  [("-h", .switch .help), ("--help", .switch .help),
    ("-e", .parameter .expression), ("--expr", .parameter .expression),
    ("--preset", .parameter .preset),
    ("--decls", .parameter .declarations),
    ("--fail-fast", .switch .failFast),
    ("--parenthesize", .switch .parenthesize),
    ("--json", .switch .json),
    ("-v", .switch .verbose), ("--verbose", .switch .verbose),
    ("--log-json", .switch .logJson)]

/-- The option of a spelling. -/
def Opt.ofSpelling? (spelling : String) : Option Opt := spellings.lookup spelling

/-- The name by which messages speak of an option: its spellings, with slashes between. -/
def Opt.label (o : Opt) : String :=
  "/".intercalate ((spellings.filter (·.2 = o)).map (·.1))

/-! ## Refusals -/

/-- Why arguments are refused. -/
inductive UsageError where
  /-- A shortened option could be any of several. -/
  | ambiguous (argument : String) (candidates : List String)
  /-- An option lacks its value. -/
  | missingValue (o : Opt)
  /-- An option has a value but takes none. -/
  | ignoredValue (o : Opt) (value : String)
  /-- No such table of declarations. -/
  | invalidPreset (value : String)
  /-- Arguments that nothing has a use for. -/
  | unrecognized (arguments : List String)
  /-- Neither a source file nor an expression was given. -/
  | nothingToFold
deriving DecidableEq, Inhabited

/-- The message of a refusal. -/
def UsageError.message : UsageError → String
  | ambiguous argument candidates =>
    s!"ambiguous option: {argument} could match " ++ ", ".intercalate candidates
  | missingValue o => s!"argument {o.label}: expected one argument"
  | ignoredValue o value =>
    s!"argument {o.label}: ignored explicit argument {Text.quoted value}"
  | invalidPreset value =>
    let names := ", ".intercalate (Preset.all.map (Text.quoted ·.text))
    let label := (Opt.parameter .preset).label
    s!"argument {label}: invalid choice: {Text.quoted value} (choose from {names})"
  | unrecognized arguments => "unrecognized arguments: " ++ " ".intercalate arguments
  | nothingToFold => "nothing to fold: pass a source file or -e EXPR"

/-- Why there is nothing to run: help was asked for, or the arguments are refused. -/
inductive Refusal where
  | help
  | usage (e : UsageError)
deriving DecidableEq, Inhabited

/-- The line with which a refusal ends. -/
def UsageError.line (e : UsageError) : String := "opprec: error: " ++ e.message

/-! ## Classification -/

/-- What an argument is by itself. An option may have a value attached to its spelling. -/
inductive Argument where
  | word (text : String)
  | separator
  | option (o : Opt) (spelling : String) (attached : Option String)
  | unknown (text : String)
deriving DecidableEq, Inhabited

namespace Argument

/-- The argument as it was given, for those that stand for themselves. -/
def text : Argument → String
  | word text => text
  | separator => "--"
  | option _ spelling _ => spelling
  | unknown text => text

/-- Whether an argument stands among the source files. -/
def isPositional : Argument → Bool
  | word _ | separator => true
  | option .. | unknown _ => false

/-- The characters before and after the first equals sign, if there is one. -/
def splitEquals (text : String) : Option (String × String) :=
  match text.toList.span (· ≠ '=') with
  | (_, []) => none
  | (before, _ :: after) => some (String.ofList before, String.ofList after)

/-- Whether a text is a negative number: a dash and digits, or a dash and a fraction with its point.
A newline may follow. -/
def isNegativeNumber (text : String) : Bool :=
  match text.toList with
  | '-' :: rest =>
    let rest := if rest.getLast? = some '\n' then rest.dropLast else rest
    match rest.span Text.isDecimalDigit with
    | (digits, []) => !digits.isEmpty
    | (_, '.' :: fraction) => !fraction.isEmpty && fraction.all Text.isDecimalDigit
    | _ => false
  | _ => false

/-- The options that a text may stand for without being the spelling of one. Behind two dashes the
text up to an equals sign may be the beginning of a spelling; behind one, the first letter may be a
short option with its value attached. -/
def candidates (text : String) : List (String × Opt × Option String) :=
  match text.toList with
  | '-' :: '-' :: _ =>
    let (beginning, attached) : String × Option String := match splitEquals text with
      | some (beginning, value) => (beginning, some value)
      | none => (text, none)
    (spellings.filter fun s => beginning.toList.isPrefixOf s.1.toList).map
      fun s => (s.1, s.2, attached)
  | '-' :: c :: rest =>
    (spellings.filter (·.1 = String.ofList ['-', c])).map
      fun s => (s.1, s.2, some (String.ofList rest))
  | _ => []

/-- The option that an equals sign joins to a value. -/
def assigned? (text : String) : Option Argument := do
  let (spelling, value) ← splitEquals text
  let o ← Opt.ofSpelling? spelling
  pure (.option o spelling (some value))

/-- What an argument in front of the separator is by itself. -/
def classify (text : String) : Except UsageError Argument :=
  if text = "-" || text.toList.head? ≠ some '-' then .ok (.word text)
  else
    match Opt.ofSpelling? text with
    | some o => .ok (.option o text none)
    | none =>
      match assigned? text with
      | some a => .ok a
      | none =>
        match candidates text with
        | [(spelling, o, attached)] => .ok (.option o spelling attached)
        | [] =>
          if isNegativeNumber text || text.contains ' ' then .ok (.word text)
          else .ok (.unknown text)
        | several => .error (.ambiguous text (several.map (·.1)))

/-- What each argument is by itself; behind the separator all are plain words. -/
def classifyAll : List String → Except UsageError (List Argument)
  | [] => .ok []
  | "--" :: rest => .ok (.separator :: rest.map .word)
  | text :: rest => do
    let a ← classify text
    let others ← classifyAll rest
    pure (a :: others)

end Argument

/-! ## Requests -/

/-- What an option with all that is attached to it asks for: some switches, and at the end of them
perhaps a parameter, whose value is attached or follows. -/
structure Request where
  switches : List Switch := []
  parameter : Option (Parameter × Option String) := none
deriving Inhabited

namespace Request

/-- The request with a switch in front. -/
def withSwitch (s : Switch) (r : Request) : Request := { r with switches := s :: r.switches }

/-- What stands behind the letter of a parameter is its value; otherwise the value follows. -/
def attachedValue : List Char → Option String
  | [] => none
  | value => some (String.ofList value)

/-- The request of a short switch with more letters attached: each letter is a short option too, up
to a parameter, which takes the rest as its value. -/
def unbundle (s : Switch) : List Char → Except UsageError Request
  | [] => .ok { switches := [s] }
  | c :: rest =>
    match Opt.ofSpelling? (String.ofList ['-', c]) with
    | none => .error (.ignoredValue (.switch s) (String.ofList (c :: rest)))
    | some (.parameter p) => .ok { switches := [s], parameter := some (p, attachedValue rest) }
    | some (.switch next) => (unbundle next rest).map (withSwitch s)

/-- The request of an option. A long switch takes nothing attached to it, and a short one takes more
letters, whether or not an equals sign stands in front of them. -/
def ofOption (o : Opt) (spelling : String) (attached : Option String) :
    Except UsageError Request :=
  match o, attached with
  | .parameter p, attached => .ok { parameter := some (p, attached) }
  | .switch s, none => .ok { switches := [s] }
  | .switch s, some value =>
    if value = "" || spelling.toList.take 2 = ['-', '-'] then
      .error (.ignoredValue (.switch s) value)
    else unbundle s value.toList

end Request

/-! ## Settings -/

/-- What the arguments ask the program to do. Files are named in their written form. A parameter may
be there without a value; only its use shows that. -/
structure Settings where
  sources : List String := []
  expressions : List (Option String) := []
  preset : Option Preset := some .standard
  declarations : List (Option String) := []
  failFast : Bool := false
  parenthesize : Bool := false
  json : Bool := false
  verbose : Bool := false
  logJson : Bool := false
deriving DecidableEq, Inhabited

namespace Settings

/-- Turns a switch on. -/
def turnOn (s : Settings) : Switch → Except Refusal Settings
  | .help => .error .help
  | .failFast => .ok { s with failFast := true }
  | .parenthesize => .ok { s with parenthesize := true }
  | .json => .ok { s with json := true }
  | .verbose => .ok { s with verbose := true }
  | .logJson => .ok { s with logJson := true }

/-- The value that a text gives to a parameter. Two dashes are a separator even there, and give
none. -/
def given (text : String) : Option String := if text = "--" then none else some text

/-- Takes the value of a parameter. -/
def assign (s : Settings) (p : Parameter) (value : Option String) : Except Refusal Settings :=
  match p, value with
  | .expression, value => .ok { s with expressions := s.expressions ++ [value] }
  | .declarations, value =>
    .ok { s with declarations := s.declarations ++ [value.map normalizePath] }
  | .preset, none => .ok { s with preset := none }
  | .preset, some name =>
    match Preset.ofText? name with
    | some preset => .ok { s with preset := some preset }
    | none => .error (.usage (.invalidPreset name))

/-- Takes the source files; the first separator among them does not count. -/
def withSources (s : Settings) (run : List Argument) : Settings :=
  { s with sources := (run.erase .separator).map (normalizePath ·.text) }

end Settings

/-- How far the arguments have been consumed: the settings so far, whether the source files have
been taken, and the arguments without a use. -/
structure Consumed where
  settings : Settings := {}
  sourcesTaken : Bool := false
  extras : List String := []
deriving Inhabited

/-- Consumes arguments from left to right. -/
def Consumed.consume (done : Consumed) : List Argument → Except Refusal Consumed
  | [] => .ok done
  | .unknown text :: rest => consume { done with extras := done.extras ++ [text] } rest
  | .option o spelling attached :: rest => do
    let request ← (Request.ofOption o spelling attached).mapError .usage
    match request.parameter with
    | none =>
      let settings ← request.switches.foldlM Settings.turnOn done.settings
      consume { done with settings } rest
    | some (p, some value) =>
      let settings ← request.switches.foldlM Settings.turnOn done.settings
      let settings ← settings.assign p (Settings.given value)
      consume { done with settings } rest
    | some (p, none) =>
      match rest with
      | .word value :: rest =>
        let settings ← request.switches.foldlM Settings.turnOn done.settings
        let settings ← settings.assign p (Settings.given value)
        consume { done with settings } rest
      | _ => throw (.usage (.missingValue (.parameter p)))
  | a :: rest =>
    let run := (a :: rest.takeWhile (·.isPositional))
    let done :=
      if done.sourcesTaken then { done with extras := done.extras ++ run.map (·.text) }
      else { done with settings := done.settings.withSources run, sourcesTaken := true }
    consume done (rest.dropWhile (·.isPositional))
termination_by arguments => arguments.length
decreasing_by
  all_goals simp only [List.length_cons]
  · omega
  · omega
  · omega
  · omega
  · have h := (List.dropWhile_sublist (l := rest) (·.isPositional)).length_le
    omega

/-- The settings that arguments ask for. -/
def Settings.ofArguments (arguments : List String) : Except Refusal Settings := do
  let classified ← (Argument.classifyAll arguments).mapError .usage
  let done ← ({} : Consumed).consume classified
  if !done.extras.isEmpty then throw (.usage (.unrecognized done.extras))
  if done.settings.sources.isEmpty && done.settings.expressions.isEmpty then
    throw (.usage .nothingToFold)
  pure done.settings

end OperatorFold.CommandLine
