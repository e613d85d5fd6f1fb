import OperatorFold.Precedence.Basic

/-! # Ready-made declarations

Two tables of declarations to start from: the two logical operators alone, and the usual table of a
language whose operators are declared in its library.
-/

namespace OperatorFold

/-- The tables of declarations that can be asked for by name. -/
inductive Preset where
  | logical
  | none
  | standard
deriving DecidableEq, Inhabited

namespace Preset

/-- The name of a table. -/
def text : Preset → String
  | logical => "logical"
  | none => "none"
  | standard => "standard"

/-- All tables, in the order of their names. -/
def all : List Preset := [logical, none, standard]

/-- The table of a name. -/
def ofText? (s : String) : Option Preset := all.find? (·.text = s)

/-- A group that is directly above the given ones. -/
def above (name : String) (associativity : Associativity) (lower : List String) : Declaration :=
  .group (.declare name associativity lower [] false .unknown)

/-- Infix operators of one group. -/
def infixOperators (group : String) (names : List String) : List Declaration :=
  names.map fun name => .operator { name, groupName := some group }

/-- Operators without a group. -/
def unaryOperators (fixity : Fixity) (names : List String) : List Declaration :=
  names.map fun name => .operator { name, fixity }

/-- Conjunction above disjunction, both to the left. -/
def logicalDeclarations : List Declaration :=
  [above "LogicalConjunctionPrecedence" .left ["LogicalDisjunctionPrecedence"],
    above "LogicalDisjunctionPrecedence" .left []]
  ++ infixOperators "LogicalConjunctionPrecedence" ["&&"]
  ++ infixOperators "LogicalDisjunctionPrecedence" ["||"]

/-- The groups of the standard table, from the weakest up. The default group and disjunction both
sit on the ternary group and have no order between them. -/
def standardGroups : List Declaration :=
  [.group (.declare "AssignmentPrecedence" .right [] [] true .unknown),
    above "FunctionArrowPrecedence" .right ["AssignmentPrecedence"],
    above "TernaryPrecedence" .right ["FunctionArrowPrecedence"],
    above "DefaultPrecedence" .none ["TernaryPrecedence"],
    above "LogicalDisjunctionPrecedence" .left ["TernaryPrecedence"],
    above "LogicalConjunctionPrecedence" .left ["LogicalDisjunctionPrecedence"],
    above "ComparisonPrecedence" .none ["LogicalConjunctionPrecedence"],
    above "NilCoalescingPrecedence" .right ["ComparisonPrecedence"],
    above "CastingPrecedence" .none ["NilCoalescingPrecedence"],
    above "RangeFormationPrecedence" .none ["CastingPrecedence"],
    above "AdditionPrecedence" .left ["RangeFormationPrecedence"],
    above "MultiplicationPrecedence" .left ["AdditionPrecedence"],
    above "BitwiseShiftPrecedence" .none ["MultiplicationPrecedence"]]

/-- The infix operators of the standard table. -/
def standardInfix : List Declaration :=
  infixOperators "BitwiseShiftPrecedence" ["<<", "&<<", ">>", "&>>"]
  ++ infixOperators "MultiplicationPrecedence" ["*", "&*", "/", "%", "&"]
  ++ infixOperators "AdditionPrecedence" ["+", "&+", "-", "&-", "|", "^"]
  ++ infixOperators "RangeFormationPrecedence" ["...", "..<"]
  ++ infixOperators "NilCoalescingPrecedence" ["??"]
  ++ infixOperators "ComparisonPrecedence"
    ["<", "<=", ">", ">=", "==", "!=", "===", "!==", "~=",
      ".==", ".!=", ".<", ".<=", ".>", ".>="]
  ++ infixOperators "LogicalConjunctionPrecedence" ["&&", ".&"]
  ++ infixOperators "LogicalDisjunctionPrecedence" ["||", ".|", ".^"]
  ++ infixOperators "AssignmentPrecedence"
    ["=", "*=", "&*=", "/=", "%=", "+=", "&+=", "-=", "&-=",
      "<<=", "&<<=", ">>=", "&>>=", "&=", "^=", "|=",
      ".&=", ".|=", ".^="]

/-- The standard table. Its unary operators are declared but never take part in folding. -/
def standardDeclarations : List Declaration :=
  standardGroups
  ++ unaryOperators .prefixOp ["!", "~", "+", "-", "..<", "..."]
  ++ unaryOperators .postfixOp ["..."]
  ++ standardInfix

/-- The declarations of a table. -/
def declarations : Preset → List Declaration
  | logical => logicalDeclarations
  | none => []
  | standard => standardDeclarations

end Preset

end OperatorFold
