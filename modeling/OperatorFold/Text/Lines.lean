/-! # Lines

Where a text breaks into lines when it is shown, and how the line ends of a file are read.
-/

namespace OperatorFold.Text

/-- The characters that end a line of a shown text. -/
def isLineBoundary (c : Char) : Bool :=
  ['\n', '\x0b', '\x0c', '\r', '\x1c', '\x1d', '\x1e', '\u0085', '\u2028', '\u2029'].contains c

/-- The text up to its first line boundary. -/
def firstLine (s : String) : String :=
  String.ofList (s.toList.takeWhile (!isLineBoundary ·))

/-- Each carriage return, together with a newline right after it, becomes one newline. -/
def unifyNewlines : List Char → List Char
  | [] => []
  | '\r' :: '\n' :: rest => '\n' :: unifyNewlines rest
  | c :: rest => (if c = '\r' then '\n' else c) :: unifyNewlines rest

end OperatorFold.Text
