import OperatorFold.CommandLine.Run
import OperatorFold.Text.Json

/-! # Output

How a report is printed: folded statements on standard output and diagnostics on standard error, or
everything as one JSON object on standard output. Log records are JSON objects too.
-/

namespace OperatorFold

/-- A log record as a JSON object. -/
def LogEvent.json (e : LogEvent) : Text.Json :=
  let own := match e with
    | .parsed file items => [("file", .string file), ("items", .integer items)]
    | _ => []
  .object <| own ++ [("event", .string e.message), ("level", .string e.level.name),
    ("logger", .string e.logger)]

namespace CommandLine

/-- A result as a JSON object. -/
def Result.json (r : Result) : Text.Json :=
  .object [("file", .string r.file), ("line", .ofInteger? r.line), ("source", .string r.source),
    ("folded", .string r.folded)]

/-- A report as a JSON object. -/
def Report.json (r : Report) : Text.Json :=
  .object [("exit_code", .integer r.exitCode), ("results", .array (r.results.map (·.json))),
    ("diagnostics", .array (r.diagnostics.map (·.json none none)))]

/-- The lines for standard output. -/
def Report.outputLines (s : Settings) (r : Report) : List String :=
  if s.json then [r.json.text] else r.results.map (·.folded)

/-- The lines for standard error. -/
def Report.errorLines (s : Settings) (r : Report) : List String :=
  if s.json then [] else r.diagnostics.map (·.human)

/-- The level from which on the program's own loggers keep records. -/
def Settings.logLevel (s : Settings) : LogLevel := if s.verbose then .debug else .warning

/-- The log records that are kept. -/
def Report.records (s : Settings) (r : Report) : List LogEvent :=
  r.log.filter (s.logLevel.number ≤ ·.level.number)

end CommandLine

end OperatorFold
