import OperatorFold.CommandLine.Output

/-! # The command

Reads the arguments and the files they name, and prints what the run brings.
-/

namespace OperatorFold.CommandLine

/-- The usage line. -/
def usage : String :=
  "usage: opprec [-h] [-e EXPRS] [--preset \x7blogical,none,standard\x7d] [--decls DECLS]\n" ++
  "              [--fail-fast] [--parenthesize] [--json] [-v] [--log-json]\n" ++
  "              [source ...]"

/-- What can be found under the name of a file. -/
def readContent (path : String) : IO FileContent := do
  try
    let bytes ← IO.FS.readBinFile path
    pure (.ofBytes bytes)
  catch e =>
    let error : FileError := match e with
      | .noFileOrDirectory .. => .missing
      | .inappropriateType _ code _ =>
        if code = 21 || code = 0 - 21 then .isADirectory else .notADirectory
      | .permissionDenied .. => .other 13 "Permission denied"
      | e => .other 5 (toString e)
    pure (.unreadable error)

/-- Runs the program on the files that the settings name. -/
def execute (s : Settings) : IO UInt32 := do
  let contents ← (s.declarations.filterMap id ++ s.sources).mapM fun path => do
    pure (path, ← readContent path)
  let files : Files := fun path => (contents.lookup path).getD (.unreadable .missing)
  match s.run files with
  | .error e =>
    IO.eprintln ("opprec: " ++ e.message)
    pure 1
  | .ok report =>
    for record in report.records s do
      if s.logJson then IO.eprintln record.json.text
      else IO.eprintln s!"[{record.level.name}] {record.message} [{record.logger}]"
    for line in report.outputLines s do
      IO.println line
    for line in report.errorLines s do
      IO.eprintln line
    pure report.exitCode.toUInt32

end OperatorFold.CommandLine

open OperatorFold.CommandLine in
/-- The command. -/
def main (arguments : List String) : IO UInt32 := do
  match Settings.ofArguments arguments with
  | .error .help =>
    IO.println usage
    pure 0
  | .error (.usage e) =>
    IO.eprintln usage
    IO.eprintln e.line
    pure 2
  | .ok settings => execute settings
