import OperatorFold.Span

/-! # Declared precedence

The records that a declaration puts down and that a registry keeps: precedence groups with their
relations to other groups, operators, and the two together as declarations. A relation names its
target; whether a group of that name exists is settled only when a comparison walks the relation.

Operators that have no group of their own fold in an implicit group, which no registry holds and
which lies below every declared one. `Level` is a declared group or that implicit one.
-/

namespace OperatorFold

/-- How a chain of operators of one group nests. -/
inductive Associativity where
  | left
  | right
  | none
deriving DecidableEq, Inhabited

/-- Where an operator stands relative to its operands. -/
inductive Fixity where
  | infixOp
  | prefixOp
  | postfixOp
deriving DecidableEq, Inhabited

/-- The side on which a group places itself relative to another. -/
inductive RelationKind where
  | higherThan
  | lowerThan
deriving DecidableEq, Inhabited

namespace Associativity

/-- The keyword of an associativity. -/
def text : Associativity → String
  | left => "left"
  | right => "right"
  | none => "none"

/-- Every associativity, in the order of declaration. -/
def all : List Associativity := [left, right, none]

/-- The associativity of a keyword. -/
def ofText? (s : String) : Option Associativity := all.find? (·.text = s)

end Associativity

namespace Fixity

/-- The keyword of a fixity. -/
def text : Fixity → String
  | infixOp => "infix"
  | prefixOp => "prefix"
  | postfixOp => "postfix"

/-- Every fixity, in the order of declaration. -/
def all : List Fixity := [infixOp, prefixOp, postfixOp]

/-- The fixity of a keyword. -/
def ofText? (s : String) : Option Fixity := all.find? (·.text = s)

end Fixity

namespace RelationKind

/-- The keyword of a relation. -/
def text : RelationKind → String
  | higherThan => "higherThan"
  | lowerThan => "lowerThan"

/-- Both relations, in the order of declaration. -/
def all : List RelationKind := [higherThan, lowerThan]

/-- The relation of a keyword. -/
def ofText? (s : String) : Option RelationKind := all.find? (·.text = s)

/-- The other relation. -/
def flip : RelationKind → RelationKind
  | higherThan => lowerThan
  | lowerThan => higherThan

end RelationKind

/-- A reference to another group by name; the span is that of the name. -/
structure Relation where
  kind : RelationKind
  target : String
  span : Span := .unknown
deriving DecidableEq, Inhabited

/-- A named precedence group with its relations in declared order. The assignment mark is kept as
declared and has no part in folding. -/
structure PrecedenceGroup where
  name : String
  associativity : Associativity := .none
  relations : List Relation := []
  assignment : Bool := false
  span : Span := .unknown
deriving DecidableEq, Inhabited

/-- A declared operator; it has no group name when none was given. -/
structure Operator where
  name : String
  fixity : Fixity := .infixOp
  groupName : Option String := none
  span : Span := .unknown
deriving DecidableEq, Inhabited

/-- An operator as it stands between two operands of an expression. -/
structure OperatorUse where
  name : String
  span : Span := .unknown
deriving DecidableEq, Inhabited

/-- What a declaration declares. -/
inductive Declaration where
  | group (g : PrecedenceGroup)
  | operator (op : Operator)
deriving DecidableEq, Inhabited

namespace PrecedenceGroup

/-- A group written down by lists of names: first the groups it is above, then those it is below,
every relation at the span of the group. -/
def declare (name : String) (associativity : Associativity) (higherThan lowerThan : List String)
    (assignment : Bool) (span : Span) : PrecedenceGroup where
  name := name
  associativity := associativity
  relations := higherThan.map (⟨.higherThan, ·, span⟩) ++ lowerThan.map (⟨.lowerThan, ·, span⟩)
  assignment := assignment
  span := span

/-- The relations of one kind, in declared order. -/
def relationsOf (g : PrecedenceGroup) (kind : RelationKind) : List Relation :=
  g.relations.filter (·.kind = kind)

/-- Two groups say the same, wherever they stand. -/
def alike (a b : PrecedenceGroup) : Bool :=
  a.name == b.name && a.associativity == b.associativity &&
    a.assignment == b.assignment &&
    a.relations.map (fun r => (r.kind, r.target)) == b.relations.map (fun r => (r.kind, r.target))

end PrecedenceGroup

namespace Operator

/-- What identifies an operator among the declared ones. -/
def key (op : Operator) : String × Fixity := (op.name, op.fixity)

/-- Two operators say the same, wherever they stand. -/
def alike (a b : Operator) : Bool :=
  a.name == b.name && a.fixity == b.fixity && a.groupName == b.groupName

end Operator

/-- Two declarations say the same, wherever they stand. -/
def Declaration.alike : Declaration → Declaration → Bool
  | .group a, .group b => a.alike b
  | .operator a, .operator b => a.alike b
  | _, _ => false

/-- The group in which an operator folds: a declared one, or the implicit one of the operators that
have none. -/
inductive Level where
  | implicit
  | declared (g : PrecedenceGroup)
deriving DecidableEq, Inhabited

namespace Level

/-- The name under which messages speak of a level. -/
def name : Level → String
  | implicit => "<default>"
  | declared g => g.name

/-- Operators of the implicit group chain to the left. -/
def associativity : Level → Associativity
  | implicit => .left
  | declared g => g.associativity

end Level

end OperatorFold
