import OperatorFold.Source.Lexer
import OperatorFold.Tree.Basic

/-! # Reading source files

A source file is a run of items without separators: group declarations, operator declarations and
expressions. An expression ends at the first token that cannot continue it.

The reader is an automaton with a stack. Its state (`State`) says what has been read of the item at
hand and determines which terminals have a place next (`State.accepted`); each token takes it to the
next state (`State.step`). Only open parentheses nest, so the stack is the list of chains that they
interrupt. The reader knows nothing of precedence: a chain of operands and operators becomes one
flat sequence, and a lone operand stands for itself.
-/

namespace OperatorFold.Source

/-! ## States -/

/-- A chain that a parenthesis has interrupted: its elements before the parenthesis, last first, and
the place of the parenthesis. -/
structure Frame where
  before : List Node
  opening : Position
deriving Inhabited

/-- A group declaration as far as it has been read; the relations are last first. -/
structure GroupDraft where
  start : Position
  name : String
  associativity : Associativity := .none
  assignment : Bool := false
  relations : List Relation := []
deriving Inhabited

/-- What has been read of the item at hand. -/
inductive State where
  /-- Between items. -/
  | ready
  /-- A complete operator declaration, to which a group may still be added. -/
  | operatorDeclared (fixity : Fixity) (start : Position) (name : String) (stop : Position)
  /-- In front of an operand; the elements before it are last first. -/
  | operand (frames : List Frame) (elements : List Node)
  /-- Past an operand. -/
  | chain (frames : List Frame) (elements : List Node)
  /-- Past a fixity. -/
  | fixity (f : Fixity) (start : Position)
  /-- In front of the name of an operator. -/
  | operatorName (f : Fixity) (start : Position)
  /-- In front of the group of an operator. -/
  | operatorGroup (f : Fixity) (start : Position) (name : String)
  /-- In front of the name of a group. -/
  | groupName (start : Position)
  /-- In front of the body of a group. -/
  | groupOpen (start : Position) (name : String)
  /-- Between the attributes of a group. -/
  | groupBody (draft : GroupDraft)
  /-- Past the name of an attribute. -/
  | attributeColon (draft : GroupDraft) (attr : GroupAttribute)
  /-- In front of an associativity. -/
  | associativity (draft : GroupDraft)
  /-- In front of a truth value. -/
  | assignment (draft : GroupDraft)
  /-- In front of a name in a list of related groups. -/
  | relationTarget (draft : GroupDraft) (kind : RelationKind)
  /-- Past a name in a list of related groups. -/
  | relationEnd (draft : GroupDraft) (kind : RelationKind)
deriving Inhabited

/-- What may begin an item. -/
def Accepted.itemStart : Accepted where
  name := true
  integer := true
  keywords := Keyword.itemStarts
  marks := [.openParen]

/-- What may stand between the attributes of a group. -/
def Accepted.inBody : Accepted where
  keywords := Keyword.attributes
  marks := [.closeBrace]

/-- The terminals that have a place in a state. Past an operand they are the same inside and outside
parentheses. -/
def State.accepted : State → Accepted
  | ready => .itemStart
  | operatorDeclared .. => { Accepted.itemStart with marks := [.colon, .openParen] }
  | operand .. => { name := true, integer := true, marks := [.openParen] }
  | chain .. =>
    { Accepted.itemStart with operator := true, marks := [.openParen, .closeParen] }
  | fixity .. => { keywords := [.operator] }
  | operatorName .. => { operator := true }
  | operatorGroup .. | groupName .. | relationTarget .. => { name := true }
  | groupOpen .. => { marks := [.openBrace] }
  | groupBody .. => .inBody
  | attributeColon .. => { marks := [.colon] }
  | associativity .. => { keywords := Keyword.associativities }
  | assignment .. => { keywords := Keyword.truthValues }
  | relationEnd .. => { Accepted.inBody with marks := [.comma, .closeBrace] }

/-! ## Building nodes and declarations -/

/-- The span of a node, unknown for a bare one. -/
def spanOf (n : Node) : Span := n.span?.getD .unknown

/-- The node of a chain whose elements are given last first: a lone operand is itself, and a longer
chain is a sequence that runs from its first element to its last. -/
def chainNode (file : Option String) : List Node → Node
  | [e] => e
  | elements =>
    .sequence elements.reverse
      (.cover file ((elements.getLast?.map spanOf).getD .unknown)
        ((elements.head?.map spanOf).getD .unknown))

/-- The statement of an expression, at the expression's place. -/
def statementNode (file : Option String) (e : Node) : Node :=
  .statement e (.cover file (spanOf e) (spanOf e))

/-- The declaration of an operator. -/
def operatorItem (file : Option String) (fixity : Fixity) (start stop : Position) (name : String)
    (groupName : Option String) : Item Node :=
  .declaration (.operator ⟨name, fixity, groupName, spanBetween file start stop⟩)

/-- The declaration of a group that ends at `stop`. -/
def GroupDraft.item (file : Option String) (draft : GroupDraft) (stop : Position) : Item Node :=
  .declaration (.group {
    name := draft.name
    associativity := draft.associativity
    relations := draft.relations.reverse
    assignment := draft.assignment
    span := spanBetween file draft.start stop })

/-- The group with one more relation, to the group that `t` names. -/
def GroupDraft.relate (file : Option String) (draft : GroupDraft) (kind : RelationKind)
    (t : Token) : GroupDraft :=
  { draft with relations := ⟨kind, t.text, t.span file⟩ :: draft.relations }

/-! ## Steps -/

/-- The items read so far, last first, and the state in the item at hand. -/
structure Progress where
  items : List (Item Node) := []
  state : State := .ready
deriving Inhabited

/-- The items when the one at hand is taken as complete; none if it is not. -/
def Progress.close (file : Option String) (p : Progress) : Option (List (Item Node)) :=
  match p.state with
  | .ready => some p.items
  | .operatorDeclared f start name stop =>
    some (operatorItem file f start stop name none :: p.items)
  | .chain [] elements => some (.node (statementNode file (chainNode file elements)) :: p.items)
  | _ => none

/-- The state past the first token of an operand. -/
def beginOperand (file : Option String) (frames : List Frame) (elements : List Node) (t : Token) :
    Option State :=
  match t.terminal with
  | .name => some (.chain frames (.name t.text (t.span file) :: elements))
  | .integer => some (.chain frames (.integer t.text (t.span file) :: elements))
  | .mark .openParen => some (.operand (⟨elements, t.start⟩ :: frames) [])
  | _ => none

/-- The state past the first token of an item. -/
def beginItem (file : Option String) (t : Token) : Option State :=
  match t.terminal with
  | .keyword .precedenceGroup => some (.groupName t.start)
  | .keyword (.fixity f) => some (.fixity f t.start)
  | _ => beginOperand file [] [] t

/-- The state past the name of an attribute and its colon. -/
def beginAttribute (draft : GroupDraft) : GroupAttribute → State
  | .associativity => .associativity draft
  | .assignment => .assignment draft
  | .relation kind => .relationTarget draft kind

/-- The progress past a token in the body of a group. -/
def bodyStep (file : Option String) (items : List (Item Node)) (draft : GroupDraft) (t : Token) :
    Option Progress :=
  match t.terminal with
  | .keyword (.groupAttribute a) => some ⟨items, .attributeColon draft a⟩
  | .mark .closeBrace => some ⟨draft.item file t.stop :: items, .ready⟩
  | _ => none

/-- The progress past the first token of the next item; the item at hand must be complete. -/
def Progress.startItem (file : Option String) (p : Progress) (t : Token) : Option Progress := do
  let items ← p.close file
  let state ← beginItem file t
  pure ⟨items, state⟩

/-- The progress past one more token, if the token has a place. A token that cannot continue the
item at hand ends it, if it is complete, and begins the next. -/
def Progress.step (file : Option String) (p : Progress) (t : Token) : Option Progress :=
  match p.state with
  | .ready => p.startItem file t
  | .operatorDeclared f start name _ =>
    match t.terminal with
    | .mark .colon => some ⟨p.items, .operatorGroup f start name⟩
    | _ => p.startItem file t
  | .operand frames elements => (beginOperand file frames elements t).map (⟨p.items, ·⟩)
  | .chain frames elements =>
    match t.terminal, frames with
    | .operator, _ =>
      some ⟨p.items, .operand frames (.operator ⟨t.text, t.span file⟩ :: elements)⟩
    | .mark .closeParen, f :: frames =>
      let inner := .paren (chainNode file elements) (spanBetween file f.opening t.stop)
      some ⟨p.items, .chain frames (inner :: f.before)⟩
    | _, _ => p.startItem file t
  | .fixity f start =>
    match t.terminal with
    | .keyword .operator => some ⟨p.items, .operatorName f start⟩
    | _ => none
  | .operatorName f start =>
    match t.terminal with
    | .operator => some ⟨p.items, .operatorDeclared f start t.text t.stop⟩
    | _ => none
  | .operatorGroup f start name =>
    match t.terminal with
    | .name => some ⟨operatorItem file f start t.stop name (some t.text) :: p.items, .ready⟩
    | _ => none
  | .groupName start =>
    match t.terminal with
    | .name => some ⟨p.items, .groupOpen start t.text⟩
    | _ => none
  | .groupOpen start name =>
    match t.terminal with
    | .mark .openBrace => some ⟨p.items, .groupBody { start, name }⟩
    | _ => none
  | .groupBody draft => bodyStep file p.items draft t
  | .attributeColon draft a =>
    match t.terminal with
    | .mark .colon => some ⟨p.items, beginAttribute draft a⟩
    | _ => none
  | .associativity draft =>
    match t.terminal with
    | .keyword (.associativity a) =>
      some ⟨p.items, .groupBody { draft with associativity := a }⟩
    | _ => none
  | .assignment draft =>
    match t.terminal with
    | .keyword (.truth b) => some ⟨p.items, .groupBody { draft with assignment := b }⟩
    | _ => none
  | .relationTarget draft kind =>
    match t.terminal with
    | .name => some ⟨p.items, .relationEnd (draft.relate file kind t) kind⟩
    | _ => none
  | .relationEnd draft kind =>
    match t.terminal with
    | .mark .comma => some ⟨p.items, .relationTarget draft kind⟩
    | _ => bodyStep file p.items draft t

/-! ## Whole texts -/

/-- Reads the rest of a text. The end of the text, where it has no place, is reported at the start
of the last token. -/
def readItems (file : Option String) (p : Progress) (last : Position) (cursor : Cursor) :
    Except ParseError (List (Item Node)) :=
  match _h : p.state.accepted.read cursor with
  | .refused e => .error e
  | .finished =>
    match p.close file with
    | some items => .ok items.reverse
    | none => .error (.unexpectedToken .endOfText "" last)
  | .token t next =>
    match p.step file t with
    | some p => readItems file p t.start next
    | none => .error (.unexpectedToken t.terminal t.text t.start)
termination_by cursor.rest.length
decreasing_by exact Accepted.length_lt_of_read _h

/-- A source file that has been read: its items in order and the name of the file, if any. -/
structure SourceFile where
  items : List (Item Node)
  file : Option String
deriving Inhabited

namespace SourceFile

/-- The file as a tree. -/
def node (s : SourceFile) : Node :=
  .sourceFile s.items s.file { file := s.file, line := some 1, column := some 1 }

/-- The declarations of a file, in order. -/
def declarations (s : SourceFile) : List Declaration := s.items.filterMap (·.declaration?)

/-- The statements of a file, in order. -/
def statements (s : SourceFile) : List Node := s.items.filterMap (·.node?)

end SourceFile

/-- Reads a source file. -/
def parseSource (text : String) (file : Option String) : Except ParseError SourceFile := do
  let items ← readItems file {} {} ⟨text.toList, {}⟩
  pure { items, file }

/-- Why a text is no single expression: it is no source text at all, or one of so many items. -/
inductive ExpressionError where
  | unreadable (e : ParseError)
  | notSingle (count : Nat)
deriving DecidableEq, Inhabited

/-- Reads a text that holds one expression and nothing else. -/
def parseExpression (text : String) (file : Option String) : Except ExpressionError Node :=
  match parseSource text file with
  | .error e => .error (.unreadable e)
  | .ok source =>
    match source.items with
    | [.node (.statement e _)] => .ok e
    | items => .error (.notSingle items.length)

end OperatorFold.Source
