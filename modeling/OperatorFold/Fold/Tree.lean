import OperatorFold.Fold.Sequence
import OperatorFold.Tree.Children

/-! # Folding a tree

Every sequence in a tree is folded, those inside a sequence before the sequence itself. The walk
keeps its own stack of tasks, so no nesting is too deep for it. Only sequences and what lies above
them are rebuilt; a tree without sequences is kept as it is.
-/

namespace OperatorFold

/-- What is left to do about a node: go through its children first, or finish it once they are
done. -/
inductive Task where
  | enter (n : Node)
  | leave (n : Node)
deriving Inhabited

namespace Task

/-- A bound on the steps that a task takes. -/
noncomputable def weight : Task → Nat
  | enter n => 2 * sizeOf n
  | leave _ => 1

/-- A bound on the steps that some tasks take together. -/
noncomputable def totalWeight : List Task → Nat
  | [] => 0
  | t :: rest => t.weight + totalWeight rest

theorem totalWeight_append (tasks others : List Task) :
    totalWeight (tasks ++ others) = totalWeight tasks + totalWeight others := by
  induction tasks with
  | nil => simp only [List.nil_append, totalWeight, Nat.zero_add]
  | cons t rest ih => simp only [List.cons_append, totalWeight, ih, Nat.add_assoc]

theorem totalWeight_enter (nodes : List Node) :
    totalWeight (nodes.map enter) = 2 * Node.totalSize nodes := by
  induction nodes with
  | nil => rfl
  | cons n rest ih =>
    simp only [List.map_cons, totalWeight, weight, Node.totalSize, ih]
    omega

end Task

namespace Registry

/-- Finishes a node over its finished children. -/
def finish (r : Registry) (n : Node) (kids : List Substitute) : Reporting Substitute := do
  let rebuilt ← if n.children.isEmpty then pure ⟨n, true⟩ else .ofExcept (n.replaceChildren kids)
  match rebuilt.node with
  | .sequence elements _ => do
    let folded ← r.foldSequence elements
    pure ⟨folded, false⟩
  | _ => pure rebuilt

/-- Works off a stack of tasks. The finished nodes are kept last first. -/
def work (r : Registry) : List Task → List Substitute → Reporting (List Substitute)
  | [], done => pure done
  | .enter n :: tasks, done => work r (n.children.map .enter ++ .leave n :: tasks) done
  | .leave n :: tasks, done => do
    let count := n.children.length
    let finished ← r.finish n (done.take count).reverse
    work r tasks (finished :: done.drop count)
termination_by tasks => Task.totalWeight tasks
decreasing_by
  · have h := n.totalSize_children_lt
    simp only [Task.totalWeight_append, Task.totalWeight, Task.totalWeight_enter, Task.weight]
    omega
  · simp only [Task.totalWeight, Task.weight]
    omega

/-- Folds every sequence in a tree. -/
def foldTree (r : Registry) (n : Node) : Reporting Substitute := do
  match ← r.work [.enter n] [] with
  | [result] => pure result
  | _ => .halt (.fault .leftover)

end Registry

end OperatorFold
