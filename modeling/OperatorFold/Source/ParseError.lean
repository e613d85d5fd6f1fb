import OperatorFold.Source.Parser
import OperatorFold.Text.Lines

/-! # Refused texts

The wording of the errors with which reading a source text ends. A message is one line: where the
offending character would itself break the line, the message ends in front of it.
-/

namespace OperatorFold.Source

namespace ParseError

/-- The place of an error. -/
def place : ParseError → Position
  | unexpectedToken _ _ place => place
  | unexpectedCharacter _ place => place

/-- The message of an error. -/
def message : ParseError → String
  | unexpectedToken terminal text place =>
    s!"Unexpected token Token('{terminal.label}', '{text}') at line {place.line}, " ++
      s!"column {place.column}."
  | unexpectedCharacter c place =>
    Text.firstLine (s!"No terminal matches '{c}' in the current parser context, " ++
      s!"at line {place.line} col {place.column}")

end ParseError

/-- The message for a text of the wrong number of items. -/
def ExpressionError.message : ExpressionError → String
  | unreadable e => e.message
  | notSingle count => s!"expected a single expression, got {count} item(s)"

end OperatorFold.Source
