import OperatorFold.Source.Token

/-! # Lexemes

Reading one token at the front of a text. What may be read depends on what the grammar has a place
for (`Accepted`): a word is a keyword only where that keyword is accepted, and where no name is
accepted a keyword is taken as soon as the text begins with it. Blanks and comments are skipped
wherever a token may begin; inside an operator two slashes are two of its characters.
-/

namespace OperatorFold.Source

/-! ## Character classes -/

/-- The characters that separate tokens: space, tab, form feed, carriage return and newline. -/
def isBlank (c : Char) : Bool :=
  c = ' ' || c = '\t' || c = '\x0c' || c = '\r' || c = '\n'

/-- The characters with which a name begins: the ASCII letters and the underscore. -/
def isNameStart (c : Char) : Bool := c.isAlpha || c = '_'

/-- The characters of a name. -/
def isNameChar (c : Char) : Bool := c.isAlphanum || c = '_'

/-- The characters after the first digit of a decimal literal. -/
def isDigitOrGap (c : Char) : Bool := c.isDigit || c = '_'

/-- The characters after the `0x` of a hexadecimal literal. -/
def isHexDigitOrGap (c : Char) : Bool :=
  c.isDigit || ('a' ≤ c && c ≤ 'f') || ('A' ≤ c && c ≤ 'F') || c = '_'

/-- The characters of operators. -/
def operatorChars : List Char :=
  ['/', '=', '-', '+', '!', '*', '%', '<', '>', '&', '|', '^', '~', '?', '.']

/-- Whether a character is one of those of operators. -/
def isOperatorChar (c : Char) : Bool := operatorChars.contains c

/-! ## What the grammar has a place for -/

/-- The terminals that may come next. -/
structure Accepted where
  name : Bool := false
  integer : Bool := false
  operator : Bool := false
  keywords : List Keyword := []
  marks : List Mark := []
deriving DecidableEq, Inhabited

/-- Every terminal at once; tells a known token in the wrong place from no token at all. -/
def Accepted.everything : Accepted where
  name := true
  integer := true
  operator := true
  keywords := Keyword.all
  marks := Mark.all

/-! ## One lexeme

A lexeme is given by its terminal and its length. -/

/-- The length of the integer literal at the front of a text, zero if there is none. A zero with an
`x` and at least one hexadecimal digit or gap is hexadecimal; any other digit begins a decimal. -/
def integerLength : List Char → Nat
  | '0' :: 'x' :: rest =>
    match (rest.takeWhile isHexDigitOrGap).length with
    | 0 => 1
    | n + 1 => n + 3
  | c :: rest => if c.isDigit then (rest.takeWhile isDigitOrGap).length + 1 else 0
  | [] => 0

namespace Accepted

/-- The word at the front of a text: the longest name, which is a keyword if it equals an accepted
one. -/
def word? (a : Accepted) (text : List Char) : Option (Terminal × Nat) :=
  match text with
  | c :: _ =>
    if isNameStart c then
      let word := text.takeWhile isNameChar
      match a.keywords.find? (·.text.toList = word) with
      | some k => some (.keyword k, word.length)
      | none => some (.name, word.length)
    else none
  | [] => none

/-- The accepted keyword with which a text begins, whatever follows it. -/
def keyword? (a : Accepted) (text : List Char) : Option (Terminal × Nat) :=
  (a.keywords.find? (·.text.toList.isPrefixOf text)).map
    fun k => (.keyword k, k.text.toList.length)

/-- The integer literal at the front of a text. -/
def integer? (text : List Char) : Option (Terminal × Nat) :=
  match integerLength text with
  | 0 => none
  | n => some (.integer, n)

/-- The operator at the front of a text: as many of its characters as there are. -/
def operator? (text : List Char) : Option (Terminal × Nat) :=
  match (text.takeWhile isOperatorChar).length with
  | 0 => none
  | n => some (.operator, n)

/-- The accepted mark with which a text begins. -/
def mark? (a : Accepted) : List Char → Option (Terminal × Nat)
  | c :: _ => (a.marks.find? (·.char = c)).map fun m => (.mark m, 1)
  | [] => none

/-- The accepted lexeme at the front of a text. The classes of their first characters are disjoint,
so at most one of the readings applies. -/
def lexeme? (a : Accepted) (text : List Char) : Option (Terminal × Nat) :=
  (if a.name then a.word? text else a.keyword? text)
    <|> (if a.integer then integer? text else none)
    <|> (if a.operator then operator? text else none)
    <|> a.mark? text

end Accepted

/-! ## Moving through a text -/

/-- The rest of a text and the place where it begins. -/
structure Cursor where
  rest : List Char
  position : Position
deriving DecidableEq, Inhabited

/-- Skips blanks and comments. A comment runs from two slashes up to the end of the line; the flag
says that one is being skipped. -/
def skipLayout : Bool → List Char → Position → Cursor
  | _, [], p => ⟨[], p⟩
  | true, c :: rest, p => skipLayout (c ≠ '\n') rest (p.after c)
  | false, '/' :: '/' :: rest, p => skipLayout true rest ((p.after '/').after '/')
  | false, c :: rest, p =>
    if isBlank c then skipLayout false rest (p.after c) else ⟨c :: rest, p⟩

/-- Why a text is refused: a token in a place where the grammar has none for it, or a character
with which no token begins. -/
inductive ParseError where
  | unexpectedToken (terminal : Terminal) (text : String) (place : Position)
  | unexpectedCharacter (c : Char) (place : Position)
deriving DecidableEq, Inhabited

/-- What stands next in a text. -/
inductive Reading where
  | finished
  | token (t : Token) (next : Cursor)
  | refused (e : ParseError)
deriving DecidableEq, Inhabited

/-- The token of the first `length` characters at a cursor. -/
def Cursor.token (c : Cursor) (terminal : Terminal) (length : Nat) : Token where
  terminal := terminal
  text := String.ofList (c.rest.take length)
  start := c.position
  stop := c.position.afterAll (c.rest.take length)

/-- The cursor past the first `length` characters. -/
def Cursor.advance (c : Cursor) (length : Nat) : Cursor :=
  ⟨c.rest.drop length, c.position.afterAll (c.rest.take length)⟩

/-- The cursor past blanks and comments. -/
def Cursor.skip (c : Cursor) : Cursor := skipLayout false c.rest c.position

/-- Reads the next token among the accepted ones. -/
def Accepted.read (a : Accepted) (cursor : Cursor) : Reading :=
  let here := cursor.skip
  match here.rest with
  | [] => .finished
  | c :: _ =>
    match a.lexeme? here.rest with
    | some (terminal, n + 1) => .token (here.token terminal (n + 1)) (here.advance (n + 1))
    | _ =>
      match everything.lexeme? here.rest with
      | some (terminal, n) =>
        .refused (.unexpectedToken terminal (here.token terminal n).text here.position)
      | none => .refused (.unexpectedCharacter c here.position)

/-! ## Progress

Every token takes at least one character, so reading a text token by token ends. -/

theorem skipLayout_length_le (inComment : Bool) (text : List Char) (p : Position) :
    (skipLayout inComment text p).rest.length ≤ text.length := by
  fun_induction skipLayout inComment text p with
  | case1 => simp
  | case2 _ _ _ ih => simp only [List.length_cons]; omega
  | case3 _ _ ih => simp only [List.length_cons]; omega
  | case4 _ _ _ _ _ ih => simp only [List.length_cons]; omega
  | case5 => simp

theorem Accepted.length_lt_of_read {a : Accepted} {cursor next : Cursor} {t : Token}
    (h : a.read cursor = .token t next) : next.rest.length < cursor.rest.length := by
  have hskip : cursor.skip.rest.length ≤ cursor.rest.length := skipLayout_length_le ..
  unfold Accepted.read at h
  simp only at h
  split at h
  · cases h
  · next hrest =>
    split at h
    · cases h
      simp only [Cursor.advance, List.length_drop, hrest, List.length_cons] at hskip ⊢
      omega
    · split at h <;> cases h

end OperatorFold.Source
