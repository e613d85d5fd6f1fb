import OperatorFold.Tree.Children

/-! # Explicit grouping

Parentheses can spell a folded tree: a parenthesized sequence of one operator stands for the binary
operation itself. Reading them so turns a fully parenthesized expression into the tree that a fold
should have produced.
-/

namespace OperatorFold.Node

/-- The tree that the parentheses of an expression spell. Parentheses around anything but one
operation stay. -/
def explicitGroups (n : Node) : Except Fault Substitute :=
  match n with
  | paren (sequence [left, operator use, right] _) _ => do
    let l ← explicitGroups left
    let r ← explicitGroups right
    pure ⟨binary l.node (operator use) r.node .unknown, false⟩
  | n => do
    let kids ← n.children.attach.mapM fun ⟨kid, _⟩ => explicitGroups kid
    n.replaceChildren kids
termination_by sizeOf n
decreasing_by
  · simp only [paren.sizeOf_spec, sequence.sizeOf_spec, List.cons.sizeOf_spec]; omega
  · simp only [paren.sizeOf_spec, sequence.sizeOf_spec, List.cons.sizeOf_spec]; omega
  · next h => exact sizeOf_lt_of_mem_children h

end OperatorFold.Node
