import OperatorFold.Proofs.Grouping.Basic

/-! # A part of a grouping

A context is a grouping with a hole in the place of one part. Putting a single operand into the hole
instead of the part shortens the spines that lead through it and changes nothing else. So what is
settled stays settled, and no conflict arises that was not there with the part.
-/

namespace OperatorFold.Grouping

variable {α β : Type} {combines conflicting : β → β → Bool}

/-- A grouping without one of its parts. -/
inductive Context (α β : Type) where
  | hole
  | inLeft (inner : Context α β) (op : β) (right : Grouping α β)
  | inRight (left : Grouping α β) (op : β) (inner : Context α β)

namespace Context

/-- The grouping with a part in the hole. -/
def fill : Context α β → Grouping α β → Grouping α β
  | hole, t => t
  | inLeft inner op right, t => operation (inner.fill t) op right
  | inRight left op inner, t => operation left op (inner.fill t)

variable {c : Context α β} {t : Grouping α β} {a : α}

/-- A part keeps its operands in the whole. -/
theorem operands_subset_fill (c : Context α β) (t : Grouping α β) :
    t.operands ⊆ (c.fill t).operands := by
  induction c with
  | hole => exact List.Subset.refl _
  | inLeft inner op right ih =>
    intro n hn
    exact List.mem_append_left _ (ih hn)
  | inRight left op inner ih =>
    intro n hn
    exact List.mem_append_right _ (ih hn)

/-- An operand in the place of a part is the only one that is new. -/
theorem operands_fill_operand_subset (c : Context α β) (t : Grouping α β) (a : α) :
    (c.fill (operand a)).operands ⊆ a :: (c.fill t).operands := by
  -- along the way from the root to the place of the part
  induction c with
  | hole =>
    intro n hn
    rw [List.mem_singleton.mp hn]
    exact List.mem_cons_self
  | inLeft inner op right ih =>
    intro n hn
    rcases List.mem_append.mp hn with hn | hn
    · rcases List.mem_cons.mp (ih hn) with rfl | hn
      · exact List.mem_cons_self
      · exact List.mem_cons_of_mem _ (List.mem_append_left _ hn)
    · exact List.mem_cons_of_mem _ (List.mem_append_right _ hn)
  | inRight left op inner ih =>
    intro n hn
    rcases List.mem_append.mp hn with hn | hn
    · exact List.mem_cons_of_mem _ (List.mem_append_left _ hn)
    · rcases List.mem_cons.mp (ih hn) with rfl | hn
      · exact List.mem_cons_self
      · exact List.mem_cons_of_mem _ (List.mem_append_right _ hn)

/-! ## Spines through the hole -/

/-- A part adds to the left spine of what is around it, and takes nothing away. -/
theorem leftSpine_fill_sublist (c : Context α β) (t : Grouping α β) (a : α) :
    (c.fill (operand a)).leftSpine.Sublist (c.fill t).leftSpine := by
  induction c with
  | hole => exact List.nil_sublist _
  | inLeft inner op right ih => exact ih.cons_cons op
  | inRight left op inner ih => exact List.Sublist.refl _

theorem rightSpine_fill_sublist (c : Context α β) (t : Grouping α β) (a : α) :
    (c.fill (operand a)).rightSpine.Sublist (c.fill t).rightSpine := by
  induction c with
  | hole => exact List.nil_sublist _
  | inLeft inner op right ih => exact List.Sublist.refl _
  | inRight left op inner ih => exact ih.append_right [op]

/-! ## Settled groupings and their parts -/

/-- The parts of a settled grouping are settled. -/
theorem settled_part (h : (c.fill t).Settled combines) : t.Settled combines := by
  induction c with
  | hole => exact h
  | inLeft inner op right ih => exact ih h.2.2.1
  | inRight left op inner ih => exact ih h.2.2.2

/-- A settled grouping stays settled with an operand in the place of a part. -/
theorem settled_fill_operand (h : (c.fill t).Settled combines) (a : α) :
    (c.fill (operand a)).Settled combines := by
  induction c with
  | hole => trivial
  | inLeft inner op right ih =>
    obtain ⟨hleft, hright, htl, htr⟩ := h
    refine ⟨?_, hright, ih htl, htr⟩
    intro p hp
    exact hleft p ((inner.rightSpine_fill_sublist t a).subset hp)
  | inRight left op inner ih =>
    obtain ⟨hleft, hright, htl, htr⟩ := h
    refine ⟨hleft, ?_, htl, ih htr⟩
    intro q hq
    exact hright q ((inner.leftSpine_fill_sublist t a).subset hq)

/-- The conflicts inside a part, and those that are left with an operand in its place, are together
some of the conflicts that there were. -/
theorem conflicts_fill_subperm (c : Context α β) (t : Grouping α β) (a : α) :
    (t.conflicts conflicting ++ (c.fill (operand a)).conflicts conflicting).Subperm
      ((c.fill t).conflicts conflicting) := by
  induction c with
  | hole =>
    show (t.conflicts conflicting ++ []).Subperm (t.conflicts conflicting)
    rw [List.append_nil]
  | inLeft inner op right ih =>
    -- the spine that `op` was compared with has become shorter
    have hwith : ((inner.fill (operand a)).conflictsWith conflicting op).Sublist
        ((inner.fill t).conflictsWith conflicting op) :=
      ((inner.rightSpine_fill_sublist t a).filter _).map _
    simp only [fill, conflicts, ← List.append_assoc]
    exact (ih.append hwith.subperm).append (List.Subperm.refl _)
  | inRight left op inner ih =>
    simp only [fill, conflicts]
    -- the conflicts of the left part come first on both sides and do not change
    have hmove := List.perm_append_comm_assoc (t.conflicts conflicting)
      (left.conflicts conflicting ++ left.conflictsWith conflicting op)
      ((inner.fill (operand a)).conflicts conflicting)
    exact hmove.subperm.trans ((List.Subperm.refl _).append ih)

end Context

end OperatorFold.Grouping
