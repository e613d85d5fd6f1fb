import OperatorFold.Proofs.Grouping.Nested

/-! # Operators that meet

Which operators come to touch is a matter of places in the sequence. An operator lies on the right
spine of a settled grouping if it keeps waiting for everything behind it, and on the left spine if
everything in front of it combines before it comes in. So two operators meet if the first one keeps
waiting for all that stands between them, and all of that combines before the second one
(`Settled.mem_conflicts_of_between`). Conversely, what stands between two operators that meet lies
below the first one, on its right (`Settled.exists_between_of_mem_conflicts`).

An operation has its operators in three places: in its left part, at its root, and in its right
part. Each proof follows one or two operators down the tree by `append_cons_cases`.
-/

namespace OperatorFold.Grouping

variable {α β : Type} {combines conflicting : β → β → Bool} {t : Grouping α β} {p o : β}
  {ops before between after : List β}

/-- A place in a list is in front of another one, the same, or behind it. -/
theorem append_cons_cases {left right : List β} {op : β}
    (h : left ++ op :: right = before ++ p :: after) :
    (∃ mid, left = before ++ p :: mid ∧ after = mid ++ op :: right) ∨
      (left = before ∧ op = p ∧ right = after) ∨
        ∃ mid, before = left ++ op :: mid ∧ right = mid ++ p :: after := by
  -- the entry that is looked for is on the left, is the one in the middle, or is on the right
  rcases List.append_eq_append_iff.mp h with ⟨_ | ⟨_, mid⟩, rfl, hmid⟩ | ⟨_ | ⟨_, mid⟩, rfl, hmid⟩
  · injection hmid with hp hright
    exact .inr (.inl ⟨(List.append_nil _).symm, hp, hright⟩)
  · injection hmid with hp hright
    subst hp
    exact .inr (.inr ⟨mid, rfl, hright⟩)
  · injection hmid with hp hright
    exact .inr (.inl ⟨List.append_nil _, hp.symm, hright.symm⟩)
  · injection hmid with hp hafter
    subst hp
    exact .inl ⟨mid, rfl, hafter⟩

/-! ## Places on the spines -/

/-- An operator that keeps waiting for everything behind it lies on the right spine. -/
theorem Settled.mem_rightSpine (ht : t.Settled combines)
    (hops : t.operators = before ++ p :: between) (hwaits : ∀ q ∈ between, combines p q = false) :
    p ∈ t.rightSpine := by
  induction t generalizing before between with
  | operand a => simp [operators] at hops
  | operation left op right ihl ihr =>
    obtain ⟨hleft, -, htl, htr⟩ := ht
    rcases append_cons_cases hops with ⟨mid, hl, rfl⟩ | ⟨-, rfl, -⟩ | ⟨mid, -, hr⟩
    · -- the root would have made `p` combine
      have hspine : p ∈ left.rightSpine :=
        ihl htl hl fun q hq => hwaits q (List.mem_append_left _ hq)
      have hop : combines p op = false := hwaits op (List.mem_append_right _ List.mem_cons_self)
      rw [hleft p hspine] at hop
      cases hop
    · exact List.mem_append_right _ List.mem_cons_self
    · exact List.mem_append_left _ (ihr htr hr hwaits)

/-- An operator before which everything in front of it combines lies on the left spine. -/
theorem Settled.mem_leftSpine (ht : t.Settled combines)
    (hops : t.operators = between ++ o :: after) (hcombine : ∀ q ∈ between, combines q o = true) :
    o ∈ t.leftSpine := by
  induction t generalizing between after with
  | operand a => simp [operators] at hops
  | operation left op right ihl ihr =>
    obtain ⟨-, hright, htl, htr⟩ := ht
    rcases append_cons_cases hops with ⟨mid, hl, -⟩ | ⟨-, rfl, -⟩ | ⟨mid, rfl, hr⟩
    · exact List.mem_cons_of_mem _ (ihl htl hl hcombine)
    · exact List.mem_cons_self
    · -- the root would have kept waiting for `o`
      have hspine : o ∈ right.leftSpine := ihr htr hr fun q hq =>
        hcombine q (List.mem_append_right _ (List.mem_cons_of_mem _ hq))
      have hop : combines op o = true := hcombine op (List.mem_append_right _ List.mem_cons_self)
      rw [hright o hspine] at hop
      cases hop

/-- Two operators in conflict meet if the first one keeps waiting for all that stands between them,
and all of it combines before the second one. -/
theorem Settled.mem_conflicts_of_between (ht : t.Settled combines)
    (hops : t.operators = before ++ p :: (between ++ o :: after))
    (hwaits : ∀ q ∈ between, combines p q = false)
    (hcombine : ∀ q ∈ between, combines q o = true) (hpo : combines p o = true)
    (hconflict : conflicting p o = true) : (p, o) ∈ t.conflicts conflicting := by
  induction t generalizing before after with
  | operand a => simp [operators] at hops
  | operation left op right ihl ihr =>
    obtain ⟨hleft, hright, htl, htr⟩ := ht
    rw [conflicts, List.mem_append, List.mem_append, mem_conflictsWith]
    rcases append_cons_cases hops with ⟨mid, hl, hbehind⟩ | ⟨-, rfl, hr⟩ | ⟨mid, -, hr⟩
    · rcases append_cons_cases hbehind.symm with ⟨mid', rfl, -⟩ | ⟨rfl, rfl, -⟩ | ⟨mid', rfl, hr⟩
      · exact .inl (.inl (ihl htl hl))
      · exact .inl (.inr ⟨htl.mem_rightSpine hl hwaits, rfl, hconflict⟩)
      · -- the root stands between the two, and would have kept waiting for `o`
        have hspine : o ∈ right.leftSpine := htr.mem_leftSpine hr fun q hq =>
          hcombine q (List.mem_append_right _ (List.mem_cons_of_mem _ hq))
        have hop : combines op o = true := hcombine op (List.mem_append_right _ List.mem_cons_self)
        rw [hright o hspine] at hop
        cases hop
    · -- the root would have kept waiting for `o`
      rw [hright o (htr.mem_leftSpine hr hcombine)] at hpo
      cases hpo
    · exact .inr (ihr htr hr)

/-! ## What lies between -/

section Between

variable {above : β → Prop}

/-- What holds along the left spine, and is handed on by an operator to those it keeps waiting for,
holds of all operators. -/
theorem Settled.forall_of_leftSpine (ht : t.Settled combines) (hsub : t.operators ⊆ ops)
    (hspine : ∀ q ∈ t.leftSpine, above q)
    (hstep : ∀ q ∈ ops, ∀ s ∈ ops, above q → combines q s = false → above s) :
    ∀ q ∈ t.operators, above q := by
  induction t with
  | operand a => exact fun _ => nofun
  | operation left op right ihl ihr =>
    obtain ⟨-, hright, htl, htr⟩ := ht
    obtain ⟨hsubl, hop, hsubr⟩ := operators_operation_subset hsub
    obtain ⟨habove, hspinel⟩ := List.forall_mem_cons.mp hspine
    -- what holds of an operator passes to the left spine of its right part, which it does not
    -- combine
    have hspiner : ∀ q ∈ right.leftSpine, above q := fun q hq =>
      hstep op hop q (hsubr (leftSpine_subset right hq)) habove (hright q hq)
    intro q hq
    rcases List.mem_append.mp hq with hq | hq
    · exact ihl htl hsubl hspinel q hq
    · rcases List.mem_cons.mp hq with rfl | hq
      · exact habove
      · exact ihr htr hsubr hspiner q hq

/-- Behind an operator on the right spine stands what lies on its right. -/
theorem Settled.exists_between_of_mem_rightSpine (ht : t.Settled combines)
    (hsub : t.operators ⊆ ops) (hp : p ∈ t.rightSpine)
    (hbase : ∀ q ∈ ops, combines p q = false → above q)
    (hstep : ∀ q ∈ ops, ∀ s ∈ ops, above q → combines q s = false → above s) :
    ∃ before between, t.operators = before ++ p :: between ∧ ∀ q ∈ between, above q := by
  induction t with
  | operand a => cases hp
  | operation left op right _ ihr =>
    obtain ⟨-, hright, -, htr⟩ := ht
    obtain ⟨-, -, hsubr⟩ := operators_operation_subset hsub
    rcases List.mem_append.mp hp with hp | hp
    · obtain ⟨before, between, hops, hbetween⟩ := ihr htr hsubr hp
      refine ⟨left.operators ++ op :: before, between, ?_, hbetween⟩
      rw [operators, hops, List.append_assoc, List.cons_append]
    · -- the operator is the root, and all behind it are in its right part
      obtain rfl : p = op := List.mem_singleton.mp hp
      have hspine : ∀ q ∈ right.leftSpine, above q := fun q hq =>
        hbase q (hsubr (leftSpine_subset right hq)) (hright q hq)
      exact ⟨left.operators, right.operators, rfl, htr.forall_of_leftSpine hsubr hspine hstep⟩

/-- Between two operators that meet stands what lies on the right of the first one. -/
theorem Settled.exists_between_of_mem_conflicts (ht : t.Settled combines)
    (hsub : t.operators ⊆ ops) (h : (p, o) ∈ t.conflicts conflicting)
    (hbase : ∀ q ∈ ops, combines p q = false → above q)
    (hstep : ∀ q ∈ ops, ∀ s ∈ ops, above q → combines q s = false → above s) :
    ∃ before between after, t.operators = before ++ p :: (between ++ o :: after) ∧
      ∀ q ∈ between, above q := by
  induction t with
  | operand a => cases h
  | operation left op right ihl ihr =>
    obtain ⟨-, -, htl, htr⟩ := ht
    obtain ⟨hsubl, -, hsubr⟩ := operators_operation_subset hsub
    rw [conflicts, List.mem_append, List.mem_append, mem_conflictsWith] at h
    -- the conflict is in the left part, or between its right spine and the root, or in the right
    -- part
    rcases h with (h | ⟨hp, rfl, -⟩) | h
    · obtain ⟨before, between, after, hops, hbetween⟩ := ihl htl hsubl h
      refine ⟨before, between, after ++ op :: right.operators, ?_, hbetween⟩
      simp only [operators, hops, List.append_assoc, List.cons_append]
    · obtain ⟨before, between, hops, hbetween⟩ :=
        htl.exists_between_of_mem_rightSpine hsubl hp hbase hstep
      refine ⟨before, between, right.operators, ?_, hbetween⟩
      rw [operators, hops, List.append_assoc, List.cons_append]
    · obtain ⟨before, between, after, hops, hbetween⟩ := ihr htr hsubr h
      refine ⟨left.operators ++ op :: before, between, after, ?_, hbetween⟩
      rw [operators, hops, List.append_assoc, List.cons_append]

end Between

end OperatorFold.Grouping
