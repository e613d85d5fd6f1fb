import Mathlib.Data.List.Perm.Subperm

/-! # Groupings

A grouping is a binary tree over a sequence of operands and operators: its leaves are the operands,
its inner nodes the operators, and both stand in it in the order of the sequence. The operands are
opaque. Nothing here depends on what operands and operators are.

The *right spine* of a grouping lists the operators met from its last operand up to its root, and
the *left spine* those from its root down to its first operand. Where a grouping is the left part of
an operation, only its right spine touches the operator of that operation; where it is the right
part, only its left spine does. `Settled` is the condition on these touching pairs that a scan over
the sequence establishes.
-/

namespace OperatorFold

/-- A binary tree with operands at its leaves and operators at its inner nodes. -/
inductive Grouping (α β : Type) where
  | operand (a : α)
  | operation (left : Grouping α β) (op : β) (right : Grouping α β)
deriving DecidableEq

namespace Grouping

variable {α β γ : Type}

/-! ## The sequence below a grouping -/

/-- The first operand. -/
def first : Grouping α β → α
  | operand a => a
  | operation left _ _ => left.first

/-- What follows the first operand: operators, each with the operand after it. -/
def rest : Grouping α β → List (β × α)
  | operand _ => []
  | operation left op right => left.rest ++ (op, right.first) :: right.rest

/-- The operands from left to right. -/
def operands : Grouping α β → List α
  | operand a => [a]
  | operation left _ right => left.operands ++ right.operands

/-- The operators from left to right. -/
def operators : Grouping α β → List β
  | operand _ => []
  | operation left op right => left.operators ++ op :: right.operators

/-- The operands of a grouping are its first one and those behind the operators. -/
theorem operands_eq (t : Grouping α β) : t.operands = t.first :: t.rest.map Prod.snd := by
  induction t with
  | operand a => rfl
  | operation left op right ihl ihr =>
    rw [operands, rest, first, List.map_append, List.map_cons, ihl, ihr, List.cons_append]

theorem operators_eq (t : Grouping α β) : t.operators = t.rest.map Prod.fst := by
  induction t with
  | operand a => rfl
  | operation left op right ihl ihr =>
    rw [operators, rest, List.map_append, List.map_cons, ihl, ihr]

/-! ## Spines -/

/-- The operators from the root down to the first operand. -/
def leftSpine : Grouping α β → List β
  | operand _ => []
  | operation left op _ => op :: left.leftSpine

/-- The operators from the last operand up to the root. -/
def rightSpine : Grouping α β → List β
  | operand _ => []
  | operation _ op right => right.rightSpine ++ [op]

/-- The left spine is made of operators of the grouping. -/
theorem leftSpine_subset (t : Grouping α β) : t.leftSpine ⊆ t.operators := by
  induction t with
  | operand a => exact List.Subset.refl _
  | operation left op right ihl _ =>
    intro q hq
    rcases List.mem_cons.mp hq with rfl | hq
    · exact List.mem_append_right _ List.mem_cons_self
    · exact List.mem_append_left _ (ihl hq)

theorem rightSpine_subset (t : Grouping α β) : t.rightSpine ⊆ t.operators := by
  induction t with
  | operand a => exact List.Subset.refl _
  | operation left op right _ ihr =>
    intro p hp
    rcases List.mem_append.mp hp with hp | hp
    · exact List.mem_append_right _ (List.mem_cons_of_mem _ (ihr hp))
    · exact List.mem_append_right _ (List.mem_singleton.mp hp ▸ List.mem_cons_self)

/-- Where `combines p o` says that an operator `p` that waits for its right operand takes it before
the operator `o` comes in: at every operator all those that touch it from the left were taken before
it, and none of those that touch it from the right takes it first. -/
def Settled (combines : β → β → Bool) : Grouping α β → Prop
  | operand _ => True
  | operation left op right =>
    (∀ p ∈ left.rightSpine, combines p op = true) ∧
      (∀ q ∈ right.leftSpine, combines op q = false) ∧
      left.Settled combines ∧ right.Settled combines

instance decidableSettled (combines : β → β → Bool) :
    (t : Grouping α β) → Decidable (t.Settled combines)
  | operand _ => .isTrue trivial
  | operation left op right =>
    have := decidableSettled combines left
    have := decidableSettled combines right
    inferInstanceAs (Decidable ((∀ p ∈ left.rightSpine, combines p op = true) ∧
      (∀ q ∈ right.leftSpine, combines op q = false) ∧
        left.Settled combines ∧ right.Settled combines))

/-! ## Conflicts -/

/-- The pairs of a grouping's right spine with an operator behind it that are in conflict, from the
last operand outwards. -/
def conflictsWith (conflicting : β → β → Bool) (left : Grouping α β) (op : β) : List (β × β) :=
  (left.rightSpine.filter (conflicting · op)).map (·, op)

/-- The touching pairs in conflict with the operator on their right, for one such operator after
another from left to right. -/
def conflicts (conflicting : β → β → Bool) : Grouping α β → List (β × β)
  | operand _ => []
  | operation left op right =>
    left.conflicts conflicting ++ left.conflictsWith conflicting op ++ right.conflicts conflicting

variable {conflicting : β → β → Bool}

/-- An operator is in conflict with those on the right spine of its left part. -/
theorem mem_conflictsWith {left : Grouping α β} {op : β} {pair : β × β} :
    pair ∈ left.conflictsWith conflicting op ↔
      pair.1 ∈ left.rightSpine ∧ pair.2 = op ∧ conflicting pair.1 pair.2 = true := by
  obtain ⟨p, o⟩ := pair
  simp only [conflictsWith, List.mem_map, List.mem_filter, Prod.mk.injEq]
  constructor
  · rintro ⟨q, ⟨hq, hc⟩, rfl, rfl⟩
    exact ⟨hq, rfl, hc⟩
  · rintro ⟨hp, rfl, hc⟩
    exact ⟨p, ⟨hp, hc⟩, rfl, rfl⟩

/-- The root of a left part is compared last. -/
theorem conflictsWith_operation (left right : Grouping α β) (p o : β) :
    (operation left p right).conflictsWith conflicting o =
      right.conflictsWith conflicting o ++ if conflicting p o then [(p, o)] else [] := by
  rw [conflictsWith, rightSpine, List.filter_append, List.map_append, List.filter_singleton,
    conflictsWith]
  cases conflicting p o with
  | false => rfl
  | true => rfl

/-- The two operators of a conflict are in conflict, and both stand in the sequence. -/
theorem of_mem_conflicts {t : Grouping α β} {pair : β × β} (h : pair ∈ t.conflicts conflicting) :
    pair.1 ∈ t.operators ∧ pair.2 ∈ t.operators ∧ conflicting pair.1 pair.2 = true := by
  induction t with
  | operand a => cases h
  | operation left op right ihl ihr =>
    simp only [conflicts, List.mem_append] at h
    simp only [operators, List.mem_append, List.mem_cons]
    rcases h with (h | h) | h
    · obtain ⟨h₁, h₂, hc⟩ := ihl h
      exact ⟨.inl h₁, .inl h₂, hc⟩
    · obtain ⟨h₁, h₂, hc⟩ := mem_conflictsWith.mp h
      exact ⟨.inl (rightSpine_subset left h₁), .inr (.inl h₂), hc⟩
    · obtain ⟨h₁, h₂, hc⟩ := ihr h
      exact ⟨.inr (.inr h₁), .inr (.inr h₂), hc⟩

/-- An operator leaves the right spine when it first stands on the left of another one. So the left
operators of all conflicts, together with those that still lie on the right spine, are some of the
operators, each at most once. -/
theorem subperm_conflicts (conflicting : β → β → Bool) (t : Grouping α β) :
    ((t.conflicts conflicting).map Prod.fst ++ t.rightSpine).Subperm t.operators := by
  induction t with
  | operand a => exact List.Subperm.refl _
  | operation left op right ihl ihr =>
    have hwith : (left.conflictsWith conflicting op).map Prod.fst =
        left.rightSpine.filter (conflicting · op) := by
      rw [conflictsWith, List.map_map]
      exact List.map_id _
    -- what `op` is in conflict with lies on the right spine of the left part, and now leaves it
    have hleft : ((left.conflicts conflicting).map Prod.fst ++
        left.rightSpine.filter (conflicting · op)).Subperm left.operators :=
      ((List.filter_sublist).append_left _).subperm.trans ihl
    -- `op` itself comes to lie at the end of the spine of the right part
    have hright : ((right.conflicts conflicting).map Prod.fst ++
        (right.rightSpine ++ [op])).Subperm (op :: right.operators) := by
      rw [← List.append_assoc]
      exact (List.perm_append_singleton op _).subperm.trans ((List.subperm_cons op).mpr ihr)
    simp only [conflicts, rightSpine, operators, List.map_append, hwith]
    rw [List.append_assoc]
    exact hleft.append hright

/-- Where `f` tells all operators apart, no operator is the left one of two conflicts. -/
theorem nodup_conflicts {t : Grouping α β} {f : β → γ} (h : (t.operators.map f).Nodup) :
    ((t.conflicts conflicting).map fun pair => f pair.1).Nodup := by
  obtain ⟨l, hperm, hsub⟩ := t.subperm_conflicts conflicting
  have hall : ((t.conflicts conflicting).map Prod.fst ++ t.rightSpine).map f |>.Nodup :=
    (hperm.map f).nodup_iff.mp ((hsub.map f).nodup h)
  rw [List.map_append, List.map_map] at hall
  exact (List.nodup_append.mp hall).1

/-! ## Numbering -/

/-- The grouping over other operators. -/
def mapOperators (f : β → γ) : Grouping α β → Grouping α γ
  | operand a => operand a
  | operation left op right => operation (left.mapOperators f) (f op) (right.mapOperators f)

/-- Tells the operators apart: each gets its place in the sequence, counted from `n`. -/
def numbered : ℕ → Grouping α β → Grouping α (β × ℕ)
  | _, operand a => operand a
  | n, operation left op right =>
    operation (left.numbered n) (op, n + left.operators.length)
      (right.numbered (n + left.operators.length + 1))

/-- Numbered, the operators are counted from left to right. -/
theorem numbered_operators (n : ℕ) (t : Grouping α β) :
    (t.numbered n).operators = t.operators.zipIdx n := by
  induction t generalizing n with
  | operand a => rfl
  | operation left op right ihl ihr =>
    rw [numbered, operators, operators, ihl, ihr, List.zipIdx_append, List.zipIdx_cons]

/-- Without its numbers, a numbered grouping is the grouping. -/
theorem mapOperators_numbered (n : ℕ) (t : Grouping α β) :
    (t.numbered n).mapOperators Prod.fst = t := by
  induction t generalizing n with
  | operand a => rfl
  | operation left op right ihl ihr => rw [numbered, mapOperators, ihl, ihr]

/-- Changed operators are on the right spine in the same places. -/
theorem rightSpine_mapOperators (f : β → γ) (t : Grouping α β) :
    (t.mapOperators f).rightSpine = t.rightSpine.map f := by
  induction t with
  | operand a => rfl
  | operation left op right _ ihr =>
    rw [mapOperators, rightSpine, rightSpine, ihr, List.map_append, List.map_singleton]

/-- The conflicts of changed operators are those of the operators they come from. -/
theorem conflicts_mapOperators (conflicting : γ → γ → Bool) (f : β → γ) (t : Grouping α β) :
    (t.mapOperators f).conflicts conflicting =
      (t.conflicts fun p o => conflicting (f p) (f o)).map (Prod.map f f) := by
  induction t with
  | operand a => rfl
  | operation left op right ihl ihr =>
    have hwith : (left.mapOperators f).conflictsWith conflicting (f op) =
        (left.conflictsWith (fun p o => conflicting (f p) (f o)) op).map (Prod.map f f) := by
      simp only [conflictsWith, rightSpine_mapOperators, List.filter_map, List.map_map]
      rfl
    rw [mapOperators, conflicts, conflicts, ihl, ihr, hwith, List.map_append, List.map_append]

/-- The conflicts of a grouping, with the places of their operators. -/
def numberedConflicts (conflicting : β → β → Bool) (t : Grouping α β) :
    List ((β × ℕ) × (β × ℕ)) :=
  (t.numbered 0).conflicts fun p o => conflicting p.1 o.1

/-- Without their numbers, numbered conflicts are the conflicts. -/
theorem map_numberedConflicts (t : Grouping α β) :
    (t.numberedConflicts conflicting).map (Prod.map Prod.fst Prod.fst) =
      t.conflicts conflicting := by
  rw [numberedConflicts, ← conflicts_mapOperators, mapOperators_numbered]

/-- No operator is the left one of two conflicts. -/
theorem nodup_numberedConflicts (t : Grouping α β) :
    ((t.numberedConflicts conflicting).map fun pair => pair.1.2).Nodup := by
  have hplaces : ((t.numbered 0).operators.map Prod.snd).Nodup := by
    rw [numbered_operators, List.zipIdx_map_snd]
    exact List.nodup_range'
  exact nodup_conflicts hplaces

end Grouping

end OperatorFold
