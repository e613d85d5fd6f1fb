import OperatorFold.Tree.Basic

/-! # Faults

Why an operation on a tree ends without a result. Unlike a precedence error, a fault leaves nothing
to go on with. Trees that the reader builds never cause one.
-/

namespace OperatorFold

/-- The ways in which an operation on a tree fails. -/
inductive Fault where
  /-- The elements put into a sequence do not alternate. -/
  | sequence (e : SequenceError)
  /-- Fewer children were given than the node has. -/
  | tooFewChildren
  /-- More children were given than the node has. -/
  | tooManyChildren (kind : String)
  /-- A bare node has no parts to replace. -/
  | noParts
  /-- A bare node has no span to hand on. -/
  | noSpan
  /-- A node that is no operator stands in the place of one. -/
  | notAnOperator (kind : String)
  /-- The node has no source form. -/
  | cannotRender (kind : String)
  /-- A scan met an operator or an operand in the place of the other. -/
  | brokenAlternation
  /-- A stack had nothing left to take. -/
  | emptyStack
  /-- Something other than one result was left at the end. -/
  | leftover
deriving DecidableEq, Inhabited

/-- The text of a fault. -/
def Fault.message : Fault → String
  | sequence e => e.message
  | tooFewChildren => "too few children"
  | tooManyChildren kind => s!"too many children for {kind}"
  | noParts => "a bare node has no parts"
  | noSpan => "a bare node has no span"
  | notAnOperator kind => s!"{kind} is no operator"
  | cannotRender kind => s!"cannot render {kind}"
  | brokenAlternation => "operands and operators do not alternate"
  | emptyStack => "nothing is left on the stack"
  | leftover => "there is not exactly one result"

end OperatorFold
