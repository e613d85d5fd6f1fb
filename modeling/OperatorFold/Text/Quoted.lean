import OperatorFold.Text.Json
import OperatorFold.Text.Printable

/-! # Quoted text

Text shown in quotes inside a message. Single quotes surround it, unless it holds a single quote and
no double one. Inside, the quote in use and the backslash are escaped, and so are line ends, tabs
and every character that is not printable.
-/

namespace OperatorFold.Text

/-- The quote that surrounds a text. -/
def quoteFor (s : List Char) : Char :=
  if s.contains '\'' && !s.contains '"' then '"' else '\''

/-- The last `digits` hexadecimal digits of a number. -/
def hexDigits (digits n : Nat) : List Char :=
  match digits with
  | 0 => []
  | k + 1 => hexDigits k (n / 16) ++ [Json.hexDigit (n % 16)]

/-- The escape of an unprintable character: two, four or eight digits, as many as it takes. -/
def escapeUnprintable (c : Char) : List Char :=
  if c.toNat < 0x100 then '\\' :: 'x' :: hexDigits 2 c.toNat
  else if c.toNat < 0x10000 then '\\' :: 'u' :: hexDigits 4 c.toNat
  else '\\' :: 'U' :: hexDigits 8 c.toNat

/-- A character as it stands between quotes. -/
def quotedChar (mark c : Char) : List Char :=
  if c = mark || c = '\\' then ['\\', c]
  else if c = '\n' then ['\\', 'n']
  else if c = '\r' then ['\\', 'r']
  else if c = '\t' then ['\\', 't']
  else if isPrintable c then [c]
  else escapeUnprintable c

/-- A text in quotes. -/
def quoted (s : String) : String :=
  let mark := quoteFor s.toList
  String.ofList (mark :: s.toList.flatMap (quotedChar mark) ++ [mark])

end OperatorFold.Text
