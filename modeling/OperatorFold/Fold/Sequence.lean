import OperatorFold.Precedence.Graph

/-! # Folding one sequence

A sequence of operands and operators becomes a tree of binary operations by one scan from left to
right over two stacks: operands, and operators that wait for their right operand. Each operator that
comes in is compared with the one on top of the stack:

* the incoming one is higher: the one on top keeps waiting;
* the incoming one is lower: the one on top takes its operands, and the next one is compared;
* they are equal: the one on top takes its operands if their group associates to the left, and keeps
  waiting if it associates to the right;
* otherwise the two are reported as incomparable, and the one on top takes its operands.

So an error degrades to grouping from the left, and every sequence becomes a whole tree. An operator
without a declaration, and one whose group is not declared, is reported and folds at the implicit
level.
-/

namespace OperatorFold

/-- An operator that waits for its right operand, with the level at which it folds. -/
structure Pending where
  use : OperatorUse
  level : Level
deriving DecidableEq, Inhabited

/-- Makes the binary operation of a waiting operator from the two topmost operands. It stands where
its left operand stands. -/
def Pending.combine (top : Pending) : List Node → Except Fault (List Node)
  | right :: left :: operands =>
    match left.span? with
    | some span => .ok (.binary left (.operator top.use) right span :: operands)
    | none => .error .noSpan
  | _ => .error .emptyStack

namespace Registry

/-- The level at which an operator of an expression folds. -/
def levelOf (r : Registry) (use : OperatorUse) : Reporting Level :=
  match r.operator? use.name .infixOp with
  | none => do
    .report (.missingOperator use.name use.span)
    pure .implicit
  | some op =>
    match op.groupName with
    | none => pure .implicit
    | some name =>
      match r.group? name with
      | some g => pure (.declared g)
      | none => do
        .report (.missingGroup name use.span)
        pure .implicit

/-- Whether the waiting operator takes its operands before the incoming one is read. -/
def shouldCombine (r : Registry) (top incoming : Pending) : Reporting Bool := do
  let incomparable : Reporting Bool := do
    .report (.incomparableOperators top.use top.level.name incoming.use incoming.level.name)
    pure true
  match ← r.compare incoming.level top.level with
  | .higher => pure false
  | .lower => pure true
  | .equal =>
    match incoming.level.associativity with
    | .left => pure true
    | .right => pure false
    | .none => incomparable
  | .unordered => incomparable

/-- Combines waiting operators for as long as the incoming one asks for it. Returns the operators
that still wait and the operands. -/
def settle (r : Registry) (incoming : Pending) :
    List Pending → List Node → Reporting (List Pending × List Node)
  | [], operands => pure ([], operands)
  | top :: pending, operands => do
    if ← r.shouldCombine top incoming then
      let operands ← .ofExcept (top.combine operands)
      settle r incoming pending operands
    else pure (top :: pending, operands)

/-- Combines all waiting operators. -/
def drain : List Pending → List Node → Reporting (List Node)
  | [], operands => pure operands
  | top :: pending, operands => do
    let operands ← .ofExcept (top.combine operands)
    drain pending operands

/-- Reads operators and operands in turn, and combines what waits at the end. -/
def scan (r : Registry) : List Node → List Pending → List Node → Reporting (List Node)
  | [], pending, operands => drain pending operands
  | .operator use :: operand :: rest, pending, operands => do
    let level ← r.levelOf use
    let incoming : Pending := { use, level }
    let (pending, operands) ← r.settle incoming pending operands
    scan r rest (incoming :: pending) (operand :: operands)
  | _, _, _ => .halt (.fault .brokenAlternation)

/-- Folds the elements of one sequence, whose operands are taken as they are. -/
def foldSequence (r : Registry) (elements : List Node) : Reporting Node := do
  match elements with
  | [] => .halt (.fault .brokenAlternation)
  | first :: rest =>
    let before ← Reporting.errorCount
    match ← r.scan rest [] [first] with
    | [result] =>
      let after ← Reporting.errorCount
      .log (.folded (Node.operators elements).length (after - before))
      pure result
    | _ => .halt (.fault .leftover)

end Registry

end OperatorFold
