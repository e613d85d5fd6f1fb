import OperatorFold.Precedence.Basic

/-! # Expression trees

The tree that folding reads and writes. Three shapes matter to it: an unfolded sequence of operands
and operators, a folded binary operation, and anything else, which is an operand carried through
unexamined. Statements and source files sit above expressions; a source file mixes declarations
with nodes. Where a node stands in another is not restricted by its kind, save for the alternation
inside a sequence (`Node.sequence`).
-/

namespace OperatorFold

/-- An entry of a source file. -/
inductive Item (α : Type) where
  | declaration (d : Declaration)
  | node (n : α)
deriving DecidableEq, Inhabited

namespace Item

/-- The node of an entry, if it is one. -/
def node? {α : Type} : Item α → Option α
  | declaration _ => .none
  | node n => some n

/-- The declaration of an entry, if it is one. -/
def declaration? {α : Type} : Item α → Option Declaration
  | declaration d => some d
  | node _ => .none

end Item

/-- A node of a tree; all but the bare one have a span. An integer literal keeps its text. -/
inductive Node where
  | name (ident : String) (span : Span)
  | integer (text : String) (span : Span)
  | operator (use : OperatorUse)
  | paren (inner : Node) (span : Span)
  | sequence (elements : List Node) (span : Span)
  | binary (left operator right : Node) (span : Span)
  | statement (expr : Node) (span : Span)
  | sourceFile (items : List (Item Node)) (file : Option String) (span : Span)
  | bare
deriving Inhabited

namespace Node

/-- The span of a node; a bare node has none. -/
def span? : Node → Option Span
  | name _ s | integer _ s | paren _ s | sequence _ s | binary _ _ _ s | statement _ s
  | sourceFile _ _ s => some s
  | operator use => some use.span
  | bare => none

/-- The word by which messages speak of a node of this kind. -/
def kindName : Node → String
  | name .. => "NameExpr"
  | integer .. => "IntegerLiteralExpr"
  | operator .. => "BinaryOperatorExpr"
  | paren .. => "ParenExpr"
  | sequence .. => "SequenceExpr"
  | binary .. => "InfixOperatorExpr"
  | statement .. => "ExprStmt"
  | sourceFile .. => "SourceFile"
  | bare => "Node"

/-- Whether a node is an operator between operands. -/
def isOperator : Node → Bool
  | operator _ => true
  | _ => false

/-- Whether a node is an unfolded sequence. -/
def isSequence : Node → Bool
  | sequence .. => true
  | _ => false

end Node

/-! ## Sequences

A sequence alternates operands and operators, begins and ends with an operand, and so has an odd
number of elements. `Node.sequence?` builds one only from such elements. -/

/-- Why a list of nodes is no sequence. -/
inductive SequenceError where
  | evenLength
  | misplaced (index : Nat) (kind : String)
deriving DecidableEq, Inhabited

/-- The text of the refusal. -/
def SequenceError.message : SequenceError → String
  | evenLength =>
    "sequence must alternate operands and operators, starting and ending with an operand"
  | misplaced index kind => s!"sequence element {index} is misplaced: {kind}"

namespace Node

/-- The first element, from position `index` on, that is an operator at an even position or an
operand at an odd one. -/
def misplacedFrom (index : Nat) : List Node → Option SequenceError
  | [] => none
  | e :: rest =>
    if (index % 2 == 1) == e.isOperator then misplacedFrom (index + 1) rest
    else some (.misplaced index e.kindName)

/-- The fault in a list of would-be elements, if it has one. -/
def sequenceFault (elements : List Node) : Option SequenceError :=
  if elements.length % 2 == 0 then some .evenLength else misplacedFrom 0 elements

/-- The sequence of well placed elements. -/
def sequence? (elements : List Node) (span : Span) : Except SequenceError Node :=
  match sequenceFault elements with
  | some fault => .error fault
  | none => .ok (.sequence elements span)

/-- The elements at even positions: the operands of a sequence. -/
def operands : List Node → List Node
  | [] => []
  | [e] => [e]
  | e :: _ :: rest => e :: operands rest

/-- The elements at odd positions: the operators of a sequence. -/
def operators : List Node → List Node
  | [] => []
  | [_] => []
  | _ :: op :: rest => op :: operators rest

/-! ## Structural equality -/

mutual

/-- Two nodes, built apart from each other, have the same structure: the same kind, the same data
and the same children, spans aside. A bare node has nothing to compare and is like no other. -/
def alike : Node → Node → Bool
  | name a _, name b _ => a == b
  | integer a _, integer b _ => a == b
  | operator a, operator b => a.name == b.name
  | paren a _, paren b _ => alike a b
  | sequence as _, sequence bs _ => alikeAll as bs
  | binary l o r _, binary l' o' r' _ => alike l l' && alike o o' && alike r r'
  | statement a _, statement b _ => alike a b
  | sourceFile as f _, sourceFile bs g _ => alikeItems as bs && f == g
  | _, _ => false

/-- Two lists of nodes agree entry by entry. -/
def alikeAll : List Node → List Node → Bool
  | [], [] => true
  | a :: as, b :: bs => alike a b && alikeAll as bs
  | _, _ => false

/-- Two entries of a file agree. -/
def alikeItem : Item Node → Item Node → Bool
  | .declaration a, .declaration b => a.alike b
  | .node a, .node b => alike a b
  | _, _ => false

/-- Two lists of entries agree entry by entry. -/
def alikeItems : List (Item Node) → List (Item Node) → Bool
  | [], [] => true
  | a :: as, b :: bs => alikeItem a b && alikeItems as bs
  | _, _ => false

end

end Node

end OperatorFold
