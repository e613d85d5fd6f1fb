import OperatorFold.Tree.Fault

/-! # Children

Uniform access to the nodes directly below a node. `Node.children` lists them in order;
`Node.replaceChildren` puts others in their place, one for one, and carries everything else over:
names, spans, and the declarations between the statements of a file.

A replacement knows whether it is the very child that was there before. If every one is, the result
is the node itself; this is how a traversal tells the parts it has changed from those it has kept.
-/

namespace OperatorFold

/-- A node put in the place of another, and whether it is that other node itself. -/
structure Substitute where
  node : Node
  kept : Bool
deriving Inhabited

namespace Node

/-- The nodes directly below a node. -/
def children : Node → List Node
  | paren inner _ => [inner]
  | sequence elements _ => elements
  | binary left op right _ => [left, op, right]
  | statement expr _ => [expr]
  | sourceFile items _ _ => items.filterMap Item.node?
  | name .. | integer .. | operator .. | bare => []

/-! ## Replacing the children

The substitutes are drawn one after another, in the order of the children. Too few of them end the
replacement where one is missing. Only when every child has its substitute does it matter whether
some are left over, then whether all of them are kept, and last whether they make a node.
-/

/-- Computations that draw substitutes from those that are left. -/
abbrev Draw := StateT (List Substitute) (Except Fault)

/-- The next substitute, of which there must be one. -/
def draw : Draw Substitute
  | [] => .error .tooFewChildren
  | s :: left => .ok (s, left)

/-- A substitute for each of some nodes. -/
def drawAll : List Node → Draw (List Substitute)
  | [] => pure []
  | _ :: rest => do
    let s ← draw
    let others ← drawAll rest
    pure (s :: others)

/-- The items of a file with a substitute for each node among them, and whether all of these are
kept; declarations stay where they are. -/
def drawItems : List (Item Node) → Draw (List (Item Node) × Bool)
  | [] => pure ([], true)
  | .declaration d :: rest => do
    let (items, kept) ← drawItems rest
    pure (.declaration d :: items, kept)
  | .node _ :: rest => do
    let s ← draw
    let (items, kept) ← drawItems rest
    pure (.node s.node :: items, s.kept && kept)

/-- The node over substitutes for its children, which may not come about, and whether all of them
are kept. A sequence must still alternate. -/
def redraw : Node → Draw (Except Fault Node × Bool)
  | paren _ span => do
    let inner ← draw
    pure (.ok (paren inner.node span), inner.kept)
  | sequence elements span => do
    let elements ← drawAll elements
    pure ((sequence? (elements.map (·.node)) span).mapError .sequence, elements.all (·.kept))
  | binary _ _ _ span => do
    let left ← draw
    let op ← draw
    let right ← draw
    pure (.ok (binary left.node op.node right.node span), left.kept && op.kept && right.kept)
  | statement _ span => do
    let expr ← draw
    pure (.ok (statement expr.node span), expr.kept)
  | sourceFile items file span => do
    let (items, kept) ← drawItems items
    pure (.ok (sourceFile items file span), kept)
  | bare => throw .noParts
  | n => pure (.ok n, true)

/-- The node with its children replaced, of which there must be as many as before. If every one is
kept, it is the node itself. -/
def replaceChildren (n : Node) (kids : List Substitute) : Except Fault Substitute := do
  let ((rebuilt, kept), left) ← n.redraw.run kids
  if !left.isEmpty then .error (.tooManyChildren n.kindName)
  else if kept then .ok ⟨n, true⟩
  else rebuilt.map (⟨·, false⟩)

/-! ## Children are smaller -/

/-- The sizes of some nodes together. -/
noncomputable def totalSize : List Node → Nat
  | [] => 0
  | n :: rest => sizeOf n + totalSize rest

theorem totalSize_append (nodes others : List Node) :
    totalSize (nodes ++ others) = totalSize nodes + totalSize others := by
  induction nodes with
  | nil => simp only [List.nil_append, totalSize, Nat.zero_add]
  | cons n rest ih => simp only [List.cons_append, totalSize, ih, Nat.add_assoc]

theorem totalSize_lt_sizeOf (nodes : List Node) : totalSize nodes < sizeOf nodes := by
  induction nodes with
  | nil => simp only [totalSize, List.nil.sizeOf_spec]; omega
  | cons n rest ih => simp only [totalSize, List.cons.sizeOf_spec]; omega

theorem totalSize_filterMap_lt (items : List (Item Node)) :
    totalSize (items.filterMap Item.node?) < sizeOf items := by
  induction items with
  | nil => simp only [List.filterMap_nil, totalSize, List.nil.sizeOf_spec]; omega
  | cons item rest ih =>
    cases item with
    | declaration d =>
      simp only [List.filterMap_cons, Item.node?, List.cons.sizeOf_spec]
      omega
    | node n =>
      simp only [List.filterMap_cons, Item.node?, totalSize, List.cons.sizeOf_spec,
        Item.node.sizeOf_spec]
      omega

/-- The children of a node are together smaller than the node. -/
theorem totalSize_children_lt (n : Node) : totalSize n.children < sizeOf n := by
  cases n with
  | name ident s => simp only [children, totalSize, name.sizeOf_spec]; omega
  | integer text s => simp only [children, totalSize, integer.sizeOf_spec]; omega
  | operator use => simp only [children, totalSize, operator.sizeOf_spec]; omega
  | paren inner s => simp only [children, totalSize, paren.sizeOf_spec]; omega
  | sequence elements s =>
    have h := totalSize_lt_sizeOf elements
    simp only [children, sequence.sizeOf_spec]
    omega
  | binary left op right s => simp only [children, totalSize, binary.sizeOf_spec]; omega
  | statement expr s => simp only [children, totalSize, statement.sizeOf_spec]; omega
  | sourceFile items file s =>
    have h := totalSize_filterMap_lt items
    simp only [children, sourceFile.sizeOf_spec]
    omega
  | bare => simp only [children, totalSize, bare.sizeOf_spec]; omega

theorem sizeOf_le_totalSize {nodes : List Node} {n : Node} (h : n ∈ nodes) :
    sizeOf n ≤ totalSize nodes := by
  induction nodes with
  | nil => cases h
  | cons a rest ih =>
    simp only [totalSize]
    rcases List.mem_cons.1 h with rfl | h
    · omega
    · have := ih h
      omega

theorem sizeOf_lt_of_mem_children {n kid : Node} (h : kid ∈ n.children) : sizeOf kid < sizeOf n :=
  Nat.lt_of_le_of_lt (sizeOf_le_totalSize h) n.totalSize_children_lt

/-- What holds of a node as soon as it holds of its children holds of every node. -/
@[elab_as_elim]
theorem children_induction {motive : Node → Prop}
    (step : ∀ n : Node, (∀ kid ∈ n.children, motive kid) → motive n) (n : Node) : motive n :=
  step n fun kid hkid =>
    have := sizeOf_lt_of_mem_children hkid
    children_induction step kid
termination_by sizeOf n

end Node

end OperatorFold
