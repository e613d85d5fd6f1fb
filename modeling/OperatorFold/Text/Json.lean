/-! # JSON text

The values that machine-readable output is made of, and their text on one line: a blank after each
comma and colon, members in the order given, and every character outside printable ASCII escaped
by its UTF-16 units.
-/

namespace OperatorFold.Text

/-- A JSON value; members of an object keep their order. -/
inductive Json where
  | null
  | integer (n : Int)
  | string (s : String)
  | array (entries : List Json)
  | object (members : List (String × Json))
deriving Inhabited

namespace Json

/-- A string, or null where there is none. -/
def ofString? (s : Option String) : Json := s.elim null string

/-- An integer, or null where there is none. -/
def ofInteger? (n : Option Int) : Json := n.elim null integer

/-- The digit of a value below sixteen, in lower case. -/
def hexDigit (n : Nat) : Char := "0123456789abcdef".toList.getD n '0'

/-- The escape of one UTF-16 unit. -/
def escapeUnit (n : Nat) : List Char :=
  ['\\', 'u', hexDigit (n / 4096 % 16), hexDigit (n / 256 % 16), hexDigit (n / 16 % 16),
    hexDigit (n % 16)]

/-- The escape of a character: one unit, or a pair of surrogates beyond the first plane. -/
def escapeChar (c : Char) : List Char :=
  if c.toNat < 0x10000 then escapeUnit c.toNat
  else
    let n := c.toNat - 0x10000
    escapeUnit (0xd800 + n / 1024) ++ escapeUnit (0xdc00 + n % 1024)

/-- A character as it stands inside a quoted string. -/
def quotedChar (c : Char) : List Char :=
  match c with
  | '"' => ['\\', '"']
  | '\\' => ['\\', '\\']
  | '\n' => ['\\', 'n']
  | '\r' => ['\\', 'r']
  | '\t' => ['\\', 't']
  | '\x08' => ['\\', 'b']
  | '\x0c' => ['\\', 'f']
  | c => if ' ' ≤ c && c ≤ '~' then [c] else escapeChar c

/-- A quoted string. -/
def quote (s : String) : String :=
  String.ofList ('"' :: s.toList.flatMap quotedChar ++ ['"'])

mutual

/-- The text of a value. -/
def text : Json → String
  | null => "null"
  | integer n => toString n
  | string s => quote s
  | array entries => "[" ++ ", ".intercalate (entryTexts entries) ++ "]"
  | object members => "\x7b" ++ ", ".intercalate (memberTexts members) ++ "\x7d"

/-- The texts of the entries of an array. -/
def entryTexts : List Json → List String
  | [] => []
  | v :: rest => text v :: entryTexts rest

/-- The texts of the members of an object. -/
def memberTexts : List (String × Json) → List String
  | [] => []
  | (key, v) :: rest => (quote key ++ ": " ++ text v) :: memberTexts rest

end

end Json

end OperatorFold.Text
