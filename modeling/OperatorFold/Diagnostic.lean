import OperatorFold.Span
import OperatorFold.Text.Json

/-! # Diagnostics

A diagnostic is an error ready to be shown, whatever it came from: a message with an optional stable
code, the phase it belongs to, its place and free-form notes.
-/

namespace OperatorFold

/-- A message about a source text. -/
structure Diagnostic where
  message : String
  code : Option String := none
  phase : Option String := none
  severity : String := "error"
  span : Span := .unknown
  notes : List String := []
deriving DecidableEq, Inhabited

namespace Diagnostic

/-- The lines in which a diagnostic is printed: its own, and one for each note at the same place. -/
def lines (d : Diagnostic) : List String :=
  s!"{d.span.text}: {d.severity}: {d.message}" ::
    d.notes.map fun note => s!"{d.span.text}: note: {note}"

/-- A diagnostic as printed. -/
def human (d : Diagnostic) : String := "\n".intercalate d.lines

/-- A diagnostic as a JSON object. The phase and the file of the caller stand in where the
diagnostic has none of its own, or an empty one. -/
def json (d : Diagnostic) (phase file : Option String) : Text.Json :=
  .object [
    ("phase", .ofString? (nonEmptyName d.phase <|> phase)),
    ("code", .ofString? d.code),
    ("message", .string d.message),
    ("severity", .string d.severity),
    ("file", .ofString? (nonEmptyName d.span.file <|> file)),
    ("line", .ofInteger? d.span.line),
    ("column", .ofInteger? d.span.column),
    ("notes", .array (d.notes.map .string))]

end Diagnostic

end OperatorFold
