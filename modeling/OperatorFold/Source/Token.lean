import OperatorFold.Precedence.Basic

/-! # Tokens

The terminals of the source language, the tokens that carry them, and positions in a text. Lines and
columns count from one, columns count characters, and only a newline ends a line.
-/

namespace OperatorFold.Source

/-- What an attribute of a group declaration sets. -/
inductive GroupAttribute where
  | associativity
  | assignment
  | relation (kind : RelationKind)
deriving DecidableEq, Inhabited

/-- The words with a meaning of their own. None of them is reserved: each is an ordinary name where
the grammar has no place for the word. -/
inductive Keyword where
  | precedenceGroup
  | groupAttribute (a : GroupAttribute)
  | associativity (a : Associativity)
  | truth (b : Bool)
  | fixity (f : Fixity)
  | operator
deriving DecidableEq, Inhabited

/-- The marks of the grammar. -/
inductive Mark where
  | openBrace
  | closeBrace
  | colon
  | comma
  | openParen
  | closeParen
deriving DecidableEq, Inhabited

/-- The kinds of token, with the end of the text as one of them. -/
inductive Terminal where
  | name
  | integer
  | operator
  | keyword (k : Keyword)
  | mark (m : Mark)
  | endOfText
deriving DecidableEq, Inhabited

namespace Keyword

/-- The spelling of a keyword. -/
def text : Keyword → String
  | precedenceGroup => "precedencegroup"
  | groupAttribute .associativity => "associativity"
  | groupAttribute .assignment => "assignment"
  | groupAttribute (.relation kind) => kind.text
  | associativity a => a.text
  | truth b => if b then "true" else "false"
  | fixity f => f.text
  | operator => "operator"

/-- The attribute keywords. -/
def attributes : List Keyword :=
  [.associativity, .relation .higherThan, .relation .lowerThan, .assignment].map groupAttribute

/-- The keywords with which an item may begin. -/
def itemStarts : List Keyword := precedenceGroup :: Fixity.all.map fixity

/-- The keywords that name an associativity. -/
def associativities : List Keyword := Associativity.all.map associativity

/-- The keywords that name a truth value. -/
def truthValues : List Keyword := [truth true, truth false]

/-- All keywords. -/
def all : List Keyword := itemStarts ++ operator :: attributes ++ associativities ++ truthValues

/-- The name by which messages speak of a keyword. -/
def label : Keyword → String
  | precedenceGroup => "PRECEDENCEGROUP"
  | groupAttribute .associativity => "ASSOCIATIVITY"
  | groupAttribute .assignment => "ASSIGNMENT"
  | groupAttribute (.relation .higherThan) => "HIGHERTHAN"
  | groupAttribute (.relation .lowerThan) => "LOWERTHAN"
  | associativity .left => "LEFT"
  | associativity .right => "RIGHT"
  | associativity .none => "NONE"
  | truth true => "TRUE"
  | truth false => "FALSE"
  | fixity .infixOp => "INFIX"
  | fixity .prefixOp => "PREFIX"
  | fixity .postfixOp => "POSTFIX"
  | operator => "__ANON_0"

end Keyword

namespace Mark

/-- The character of a mark. -/
def char : Mark → Char
  | openBrace => '\x7b'
  | closeBrace => '\x7d'
  | colon => ':'
  | comma => ','
  | openParen => '('
  | closeParen => ')'

/-- All marks. -/
def all : List Mark := [openBrace, closeBrace, colon, comma, openParen, closeParen]

/-- The name by which messages speak of a mark. -/
def label : Mark → String
  | openBrace => "LBRACE"
  | closeBrace => "RBRACE"
  | colon => "COLON"
  | comma => "COMMA"
  | openParen => "LPAR"
  | closeParen => "RPAR"

end Mark

/-- The name by which messages speak of a terminal. -/
def Terminal.label : Terminal → String
  | name => "NAME"
  | integer => "INT"
  | operator => "OPERATOR"
  | keyword k => k.label
  | mark m => m.label
  | endOfText => "$END"

/-! ## Positions -/

/-- A place in a text, by line and column. -/
structure Position where
  line : Nat := 1
  column : Nat := 1
deriving DecidableEq, Inhabited

namespace Position

/-- The place just past a character that stands at `p`. -/
def after (p : Position) (c : Char) : Position :=
  if c = '\n' then ⟨p.line + 1, 1⟩ else ⟨p.line, p.column + 1⟩

/-- The place just past a text that begins at `p`. -/
def afterAll (p : Position) (text : List Char) : Position := text.foldl after p

end Position

/-- A token with its text and the places where it begins and ends. -/
structure Token where
  terminal : Terminal
  text : String
  start : Position
  stop : Position
deriving DecidableEq, Inhabited

/-- The span between two places of a file. -/
def spanBetween (file : Option String) (start stop : Position) : Span where
  file := file
  line := some start.line
  column := some start.column
  endLine := some stop.line
  endColumn := some stop.column

/-- The span of a token; an empty file name is left out. -/
def Token.span (t : Token) (file : Option String) : Span :=
  spanBetween (nonEmptyName file) t.start t.stop

end OperatorFold.Source
