import Mathlib.Logic.Relation
import OperatorFold.Proofs.Fold.Tree

/-! # The nodes of a tree

`Within` relates a tree to every node that stands in it, its root among them. A search of the tree
for sequences finds one exactly if one stands in it (`containsSequence_iff`). A tree is well formed
if all sequences in it are: they alternate, as `Node.sequence?` makes sure when it builds them, and
no bare node is an operand.
-/

namespace OperatorFold.Node

variable {m n kid : Node}

/-- A node stands somewhere in a tree, perhaps at its root. -/
def Within (m n : Node) : Prop :=
  Relation.ReflTransGen (fun kid parent => kid ∈ parent.children) m n

theorem within_self (n : Node) : n.Within n := Relation.ReflTransGen.refl

/-- What is within a child is within the node. -/
theorem Within.of_child (h : m.Within kid) (hkid : kid ∈ n.children) : m.Within n :=
  Relation.ReflTransGen.tail h hkid

/-- What is within a node is the node itself or within one of its children. -/
theorem within_iff : m.Within n ↔ n = m ∨ ∃ kid, m.Within kid ∧ kid ∈ n.children :=
  Relation.ReflTransGen.cases_tail_iff _ m n

/-- The search of a tree finds a sequence if and only if some node of the tree is one. -/
theorem containsSequence_iff (n : Node) :
    n.containsSequence = true ↔ ∃ m : Node, m.Within n ∧ m.isSequence = true := by
  induction n using children_induction with
  | step n ih =>
    rw [containsSequence_eq, Bool.or_eq_true, List.any_eq_true]
    constructor
    · rintro (hroot | ⟨kid, hkid, hfound⟩)
      · exact ⟨n, n.within_self, hroot⟩
      · obtain ⟨m, hm, hseq⟩ := (ih kid hkid).mp hfound
        exact ⟨m, hm.of_child hkid, hseq⟩
    · rintro ⟨m, hm, hseq⟩
      rcases within_iff.mp hm with rfl | ⟨kid, hm, hkid⟩
      · exact .inl hseq
      · exact .inr ⟨kid, hkid, (ih kid hkid).mpr ⟨m, hm, hseq⟩⟩

/-! ## Well-formed trees -/

/-- The sequences in a tree alternate operands and operators. -/
def Alternates (n : Node) : Prop :=
  ∀ elements span, (sequence elements span).Within n → sequenceFault elements = none

/-- The sequences in a tree alternate, and a bare node is an operand of none. -/
structure WellFormed (n : Node) : Prop where
  alternates : n.Alternates
  not_bare : ∀ elements span, (sequence elements span).Within n → .bare ∉ elements

theorem WellFormed.child (h : n.WellFormed) (hkid : kid ∈ n.children) : kid.WellFormed where
  alternates elements span hwithin := h.alternates elements span (hwithin.of_child hkid)
  not_bare elements span hwithin := h.not_bare elements span (hwithin.of_child hkid)

/-- A tree is well formed if its root is, should it be a sequence, and all parts below it are. -/
theorem wellFormed_iff :
    n.WellFormed ↔
      (∀ elements span, n = sequence elements span →
        sequenceFault elements = none ∧ .bare ∉ elements) ∧
      ∀ kid ∈ n.children, kid.WellFormed := by
  constructor
  · intro h
    refine ⟨?_, fun kid hkid => h.child hkid⟩
    rintro elements span rfl
    have hroot := within_self (sequence elements span)
    exact ⟨h.alternates elements span hroot, h.not_bare elements span hroot⟩
  · rintro ⟨hroot, hkids⟩
    constructor
    · intro elements span hwithin
      -- a sequence of the tree is the tree itself or lies in one child
      rcases within_iff.mp hwithin with heq | ⟨kid, hwithin, hkid⟩
      · exact (hroot elements span heq).1
      · exact (hkids kid hkid).alternates elements span hwithin
    · intro elements span hwithin
      rcases within_iff.mp hwithin with heq | ⟨kid, hwithin, hkid⟩
      · exact (hroot elements span heq).2
      · exact (hkids kid hkid).not_bare elements span hwithin

section Constructors

variable {inner left op right expr : Node} {elements : List Node} {items : List (Item Node)}
  {file : Option String} {span : Span}

@[simp] theorem wellFormed_name (ident : String) : (name ident span).WellFormed :=
  wellFormed_iff.mpr ⟨nofun, nofun⟩

@[simp] theorem wellFormed_integer (text : String) : (integer text span).WellFormed :=
  wellFormed_iff.mpr ⟨nofun, nofun⟩

@[simp] theorem wellFormed_operator (use : OperatorUse) : (operator use).WellFormed :=
  wellFormed_iff.mpr ⟨nofun, nofun⟩

@[simp] theorem wellFormed_bare : bare.WellFormed :=
  wellFormed_iff.mpr ⟨nofun, nofun⟩

@[simp] theorem wellFormed_paren : (paren inner span).WellFormed ↔ inner.WellFormed := by
  simp [wellFormed_iff (n := paren inner span), children]

/-- A sequence is well-formed if its elements alternate, none of them is bare, and all are
well-formed. -/
@[simp] theorem wellFormed_sequence :
    (sequence elements span).WellFormed ↔
      (sequenceFault elements = none ∧ .bare ∉ elements) ∧ ∀ e ∈ elements, e.WellFormed := by
  simp [wellFormed_iff (n := sequence elements span), children]

@[simp] theorem wellFormed_binary :
    (binary left op right span).WellFormed ↔
      left.WellFormed ∧ op.WellFormed ∧ right.WellFormed := by
  simp [wellFormed_iff (n := binary left op right span), children]

@[simp] theorem wellFormed_statement : (statement expr span).WellFormed ↔ expr.WellFormed := by
  simp [wellFormed_iff (n := statement expr span), children]

/-- A file is well-formed if its nodes are. -/
@[simp] theorem wellFormed_sourceFile :
    (sourceFile items file span).WellFormed ↔
      ∀ n ∈ items.filterMap Item.node?, n.WellFormed := by
  rw [wellFormed_iff, children]
  refine and_iff_right ?_
  intro elements span heq
  cases heq

end Constructors

end OperatorFold.Node
