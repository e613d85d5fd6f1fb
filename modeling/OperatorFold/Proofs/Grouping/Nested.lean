import OperatorFold.Proofs.Grouping.Basic

/-! # Nesting by a relation

`Settled` looks at touching pairs of operators only. `Nested` looks at all pairs of an operator and
another one anywhere below it. The two meet where the relations of `Nested` compose along a branch:
then what holds between an operator and the roots of its two parts holds of everything below them.
-/

namespace OperatorFold.Grouping

variable {α β : Type}

/-- Every operator of a left part stands to the operator above it as `inLeft` says, and every
operator of a right part as `inRight` says. -/
def Nested (inLeft inRight : β → β → Prop) : Grouping α β → Prop
  | operand _ => True
  | operation left op right =>
    (∀ p ∈ left.operators, inLeft p op) ∧ (∀ q ∈ right.operators, inRight q op) ∧
      left.Nested inLeft inRight ∧ right.Nested inLeft inRight

variable {inLeft inRight : β → β → Prop} {combines conflicting : β → β → Bool}

/-- An operation is without conflicts if its parts are and its operator has none with the right
spine of the left part. -/
theorem conflicts_eq_nil_iff {left right : Grouping α β} {op : β} :
    (operation left op right).conflicts conflicting = [] ↔
      left.conflicts conflicting = [] ∧ (∀ p ∈ left.rightSpine, conflicting p op = false) ∧
        right.conflicts conflicting = [] := by
  have hwith : left.conflictsWith conflicting op = [] ↔
      ∀ p ∈ left.rightSpine, conflicting p op = false := by
    simp only [conflictsWith, List.map_eq_nil_iff, List.filter_eq_nil_iff, Bool.not_eq_true]
  rw [conflicts, List.append_eq_nil_iff, List.append_eq_nil_iff, hwith, and_assoc]

/-- Operators of an operation are those of its left part, its own, and those of its right part. -/
theorem operators_operation_subset {left right : Grouping α β} {op : β} {ops : List β}
    (h : (operation left op right).operators ⊆ ops) :
    left.operators ⊆ ops ∧ op ∈ ops ∧ right.operators ⊆ ops := by
  rw [operators, List.append_subset, List.cons_subset] at h
  exact h

/-- A nested grouping is settled and has no conflicts, if an operator on the left combines without a
conflict and one on the right does not ask for it. -/
theorem Nested.settled {t : Grouping α β} {ops : List β} (hsub : t.operators ⊆ ops)
    (h : t.Nested inLeft inRight)
    (hleft : ∀ p ∈ ops, ∀ o ∈ ops, inLeft p o → combines p o = true ∧ conflicting p o = false)
    (hright : ∀ q ∈ ops, ∀ o ∈ ops, inRight q o → combines o q = false) :
    t.Settled combines ∧ t.conflicts conflicting = [] := by
  induction t with
  | operand a => exact ⟨trivial, rfl⟩
  | operation left op right ihl ihr =>
    obtain ⟨hl, hr, hnl, hnr⟩ := h
    obtain ⟨hsubl, hop, hsubr⟩ := operators_operation_subset hsub
    obtain ⟨hsl, hcl⟩ := ihl hsubl hnl
    obtain ⟨hsr, hcr⟩ := ihr hsubr hnr
    -- the root is compared with the two spines next to it, and nesting speaks of all operators
    -- there
    have hlspine : ∀ p ∈ left.rightSpine, combines p op = true ∧ conflicting p op = false := by
      intro p hp
      have hp := rightSpine_subset left hp
      exact hleft p (hsubl hp) op hop (hl p hp)
    have hrspine : ∀ q ∈ right.leftSpine, combines op q = false := by
      intro q hq
      have hq := leftSpine_subset right hq
      exact hright q (hsubr hq) op hop (hr q hq)
    refine ⟨⟨fun p hp => (hlspine p hp).1, hrspine, hsl, hsr⟩, ?_⟩
    exact conflicts_eq_nil_iff.mpr ⟨hcl, fun p hp => (hlspine p hp).2, hcr⟩

/-- What the settling of touching pairs has to say for a grouping to be nested: it decides the two
relations, and each of them takes in what lies below along a branch. -/
structure Composes (inLeft inRight : β → β → Prop) (combines conflicting : β → β → Bool)
    (ops : List β) : Prop where
  left : ∀ p ∈ ops, ∀ o ∈ ops, combines p o = true → conflicting p o = false → inLeft p o
  right : ∀ q ∈ ops, ∀ o ∈ ops, combines o q = false → inRight q o
  below_left : ∀ p ∈ ops, ∀ q ∈ ops, ∀ o ∈ ops,
    inLeft p q ∨ inRight p q → inLeft q o → inLeft p o
  below_right : ∀ p ∈ ops, ∀ q ∈ ops, ∀ o ∈ ops,
    inLeft p q ∨ inRight p q → inRight q o → inRight p o

/-- What holds of the root `q` of a nested grouping, and of everything below that stands to `q` in
one of the two relations, holds of all of its operators. -/
theorem Nested.forall_of_root {above : β → Prop} {left right : Grouping α β} {q : β}
    (h : (operation left q right).Nested inLeft inRight) (hq : above q)
    (hbelow : ∀ p ∈ (operation left q right).operators, inLeft p q ∨ inRight p q → above p) :
    ∀ p ∈ (operation left q right).operators, above p := by
  obtain ⟨hl, hr, _, _⟩ := h
  intro p hp
  rcases List.mem_append.mp hp with hleft | hright
  · exact hbelow p hp (.inl (hl p hleft))
  · rcases List.mem_cons.mp hright with rfl | hright
    · exact hq
    · exact hbelow p hp (.inr (hr p hright))

/-- A settled grouping without conflicts is nested, if the two relations compose. -/
theorem Settled.nested {t : Grouping α β} {ops : List β} (hsub : t.operators ⊆ ops)
    (hcomp : Composes inLeft inRight combines conflicting ops) (h : t.Settled combines)
    (hnone : t.conflicts conflicting = []) : t.Nested inLeft inRight := by
  induction t with
  | operand a => trivial
  | operation left op right ihl ihr =>
    obtain ⟨hl, hr, hsl, hsr⟩ := h
    obtain ⟨hcl, hcw, hcr⟩ := conflicts_eq_nil_iff.mp hnone
    obtain ⟨hsubl, hop, hsubr⟩ := operators_operation_subset hsub
    have hnl := ihl hsubl hsl hcl
    have hnr := ihr hsubr hsr hcr
    refine ⟨?_, ?_, hnl, hnr⟩
    · -- the root `q` of the left part touches `op`, and all else below it stands to `q`
      cases left with
      | operand a => exact nofun
      | operation left' q right' =>
        have hq : q ∈ (operation left' q right').rightSpine :=
          List.mem_append_right _ List.mem_cons_self
        have hqs : q ∈ ops := hsubl (rightSpine_subset _ hq)
        have hroot : inLeft q op := hcomp.left q hqs op hop (hl q hq) (hcw q hq)
        refine hnl.forall_of_root hroot fun p hp hpq => ?_
        exact hcomp.below_left p (hsubl hp) q hqs op hop hpq hroot
    · cases right with
      | operand a => exact nofun
      | operation left' q right' =>
        have hq : q ∈ (operation left' q right').leftSpine := List.mem_cons_self
        have hqs : q ∈ ops := hsubr (leftSpine_subset _ hq)
        have hroot : inRight q op := hcomp.right q hqs op hop (hr q hq)
        refine hnr.forall_of_root hroot fun p hp hpq => ?_
        exact hcomp.below_right p (hsubr hp) q hqs op hop hpq hroot

end OperatorFold.Grouping
