import OperatorFold.Tree.Children

/-! # Looking for sequences

Whether an unfolded sequence is left anywhere in a tree.
-/

namespace OperatorFold.Node

/-- Looks through the nodes of a stack and everything below them. -/
def anySequence : List Node → Bool
  | [] => false
  | n :: stack => n.isSequence || anySequence (n.children ++ stack)
termination_by stack => totalSize stack
decreasing_by
  have h := n.totalSize_children_lt
  simp only [totalSize_append, totalSize]
  omega

/-- Whether a sequence is left in a tree. -/
def containsSequence (n : Node) : Bool := anySequence [n]

end OperatorFold.Node
