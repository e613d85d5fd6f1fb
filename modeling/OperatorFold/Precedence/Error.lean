import OperatorFold.Diagnostic
import OperatorFold.Precedence.Basic

/-! # Precedence errors

What can be wrong with declarations and with the operators of an expression. The set is closed: two
duplicates, met while declarations are loaded, and three errors of folding. None of them stops the
work it arises in; see `OperatorFold.Reporting` for who decides that.
-/

namespace OperatorFold

/-- An error of loading or of folding. -/
inductive PrecedenceError where
  /-- An operator is declared again; the first declaration stays. -/
  | operatorAlreadyExists (existing new : Operator)
  /-- A group is declared again; the first declaration stays. -/
  | groupAlreadyExists (existing new : PrecedenceGroup)
  /-- A relation or an operator names a group that is not declared. -/
  | missingGroup (name : String) (span : Span)
  /-- An expression uses an infix operator that is not declared. -/
  | missingOperator (name : String) (span : Span)
  /-- Two neighbouring operators have no order: their groups are unrelated, or both are in one
  group without associativity. -/
  | incomparableOperators (left : OperatorUse) (leftGroup : String) (right : OperatorUse)
      (rightGroup : String)
deriving DecidableEq, Inhabited

namespace PrecedenceError

/-- The stable code of an error. -/
def code : PrecedenceError → String
  | operatorAlreadyExists .. => "operatorAlreadyExists"
  | groupAlreadyExists .. => "groupAlreadyExists"
  | missingGroup .. => "missingGroup"
  | missingOperator .. => "missingOperator"
  | incomparableOperators .. => "incomparableOperators"

/-- The phase to which an error belongs. -/
def phase : PrecedenceError → String
  | operatorAlreadyExists .. | groupAlreadyExists .. => "declarations"
  | missingGroup .. | missingOperator .. | incomparableOperators .. => "fold"

/-- The message of an error. Two operators of the same group have no order only because it has no
associativity. -/
def message : PrecedenceError → String
  | operatorAlreadyExists _ new => s!"redefinition of {new.fixity.text} operator '{new.name}'"
  | groupAlreadyExists _ new => s!"redefinition of precedence group '{new.name}'"
  | missingGroup name _ => s!"unknown precedence group '{name}'"
  | missingOperator name _ => s!"unknown infix operator '{name}'"
  | incomparableOperators _ leftGroup _ rightGroup =>
    if leftGroup = rightGroup then
      s!"adjacent operators are in non-associative precedence group '{leftGroup}'"
    else
      s!"adjacent operators are in unordered precedence groups '{leftGroup}' and '{rightGroup}'"

/-- The place of an error. -/
def span : PrecedenceError → Span
  | operatorAlreadyExists _ new => new.span
  | groupAlreadyExists _ new => new.span
  | missingGroup _ span => span
  | missingOperator _ span => span
  | incomparableOperators _ _ right _ => right.span

/-- Where the earlier of two declarations stands, if that is known. -/
def previousDefinition (name : String) (span : Span) : List String :=
  if span.isKnown then [s!"previous definition of '{name}' at {span.text}"] else []

/-- The notes of an error: the place of the other party. -/
def notes : PrecedenceError → List String
  | operatorAlreadyExists existing _ => previousDefinition existing.name existing.span
  | groupAlreadyExists existing _ => previousDefinition existing.name existing.span
  | missingGroup .. | missingOperator .. => []
  | incomparableOperators left _ _ _ => [s!"left operator '{left.name}' at {left.span.text}"]

/-- An error ready to be shown. -/
def diagnostic (e : PrecedenceError) : Diagnostic where
  message := e.message
  code := some e.code
  phase := some e.phase
  span := e.span
  notes := e.notes

/-- Two errors say the same, wherever they arose. -/
def alike : PrecedenceError → PrecedenceError → Bool
  | operatorAlreadyExists a b, operatorAlreadyExists a' b' => a.alike a' && b.alike b'
  | groupAlreadyExists a b, groupAlreadyExists a' b' => a.alike a' && b.alike b'
  | missingGroup a _, missingGroup b _ => a == b
  | missingOperator a _, missingOperator b _ => a == b
  | incomparableOperators l lg r rg, incomparableOperators l' lg' r' rg' =>
    l.name == l'.name && lg == lg' && r.name == r'.name && rg == rg'
  | _, _ => false

end PrecedenceError

end OperatorFold
