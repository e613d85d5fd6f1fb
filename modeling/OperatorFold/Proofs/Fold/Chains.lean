import OperatorFold.Proofs.Fold.Canonical
import OperatorFold.Proofs.Fold.ErrorStream
import OperatorFold.Proofs.Grouping.Meeting
import OperatorFold.Proofs.Precedence.DeadEnds

/-! # Chains without associativity

Where the levels of all operators of a sequence are in order, two operators are in conflict only if
they are of one level without associativity. They meet exactly if everything between them is tighter
(`Consistent.mem_conflicts_iff`): what is looser would make the first one combine, and so would an
operator of their own level. If furthermore all declarations are there, a fold reports nothing else
(`Consistent.eq_incomparable_of_mem`).
-/

namespace OperatorFold.Registry

open Grouping

variable {r : Registry} {ops earlier uses : List OperatorUse} {p o use : OperatorUse}
  {e : PrecedenceError} {es : List PrecedenceError}

/-- Among some operators any two levels are in order, and no two are each higher than the other. -/
structure Linear (r : Registry) (ops : List OperatorUse) : Prop where
  ordered : ∀ p ∈ ops, ∀ q ∈ ops, r.order (r.level p) (r.level q) ≠ .unordered
  antisymmetric : r.Antisymmetric ops

theorem Linear.mono (h : r.Linear ops) (hsub : uses ⊆ ops) : r.Linear uses where
  ordered p hp q hq := h.ordered p (hsub hp) q (hsub hq)
  antisymmetric p hp q hq := h.antisymmetric p (hsub hp) q (hsub hq)

/-- Two operators of one level without associativity stand one behind the other, with nothing but
tighter ones between them. -/
def Chained (r : Registry) (uses : List OperatorUse) (p o : OperatorUse) : Prop :=
  r.level p = r.level o ∧ (r.level o).associativity = .none ∧
    ∃ before between after, uses = before ++ p :: (between ++ o :: after) ∧
      ∀ q ∈ between, r.order (r.level q) (r.level o) = .higher

/-! ## Conflicts -/

/-- Operators whose levels are in order are in conflict only within a level. -/
theorem Consistent.conflicting_iff (hr : r.Consistent)
    (hordered : r.order (r.level o) (r.level p) ≠ .unordered) :
    r.conflicting p o = true ↔ r.level p = r.level o ∧ (r.level o).associativity = .none := by
  have hequal : r.order (r.level o) (r.level p) = .equal ↔ r.level p = r.level o :=
    (hr.order_eq_equal_iff (r.registered_level o) (r.registered_level p)).trans eq_comm
  rw [conflicting, ← hequal]
  cases horder : r.order (r.level o) (r.level p) with
  | unordered => exact absurd horder hordered
  | _ => simp

/-- Two operators meet in conflict exactly if they are chained. -/
theorem Consistent.mem_conflicts_iff (hr : r.Consistent) {t : Grouping Node OperatorUse}
    (hlinear : r.Linear t.operators) (ht : t.Settled r.combines) :
    (p, o) ∈ t.conflicts r.conflicting ↔ r.Chained t.operators p o := by
  have hanti := hlinear.antisymmetric
  constructor
  · intro h
    obtain ⟨hp, ho, hconflict⟩ := of_mem_conflicts h
    obtain ⟨hlevel, hnone⟩ := (hr.conflicting_iff (hlinear.ordered o ho p hp)).mp hconflict
    -- what an operator on the right of `p` keeps waiting for fits on the right of `p`, too
    obtain ⟨before, between, after, hops, hbetween⟩ :=
      ht.exists_between_of_mem_conflicts (List.Subset.refl _) h
        (fun _ _ hwaits => hr.fits_right hwaits)
        (fun q hq s hs hqp hwaits => (hr.fits_right hwaits).trans hr hanti hs hq hqp)
    refine ⟨hlevel, hnone, before, between, after, hops, fun q hq => ?_⟩
    rcases hbetween q hq with hhigher | ⟨-, hright⟩
    · rw [← hlevel]
      exact hhigher
    · rw [hlevel, hnone] at hright
      cases hright
  · rintro ⟨hlevel, hnone, before, between, after, hops, hbetween⟩
    have hp : p ∈ t.operators := by simp [hops]
    have ho : o ∈ t.operators := by simp [hops]
    have hmem : ∀ q ∈ between, q ∈ t.operators := fun q hq => by simp [hops, hq]
    have hconflict : r.conflicting p o = true :=
      (hr.conflicting_iff (hlinear.ordered o ho p hp)).mpr ⟨hlevel, hnone⟩
    refine ht.mem_conflicts_of_between hops (fun q hq => ?_) (fun q hq => ?_)
      (r.combines_of_conflicting hconflict) hconflict
    · have hfits : r.Fits .right q p := .inl (hlevel ▸ hbetween q hq)
      exact hfits.waits hr
    · have hfits : r.Fits .left q o := .inl (hbetween q hq)
      exact (hfits.combines hr hanti (hmem q hq) ho).1

/-! ## Errors -/

/-- Nothing is reported when an operator with a group is resolved. -/
theorem Resolution.eq_nil {g : PrecedenceGroup} (h : r.Resolution use es)
    (huse : r.level use = .declared g) : es = [] := by
  have hdeclared : ∀ es, ¬r.FoldsImplicitly use es := by
    intro es himplicit
    rw [himplicit.level_eq] at huse
    cases huse
  refine List.eq_nil_iff_forall_not_mem.mpr fun e he => ?_
  rcases h.mem e he with rfl | ⟨name, rfl⟩
  · have hnone := (r.operator?_infixOp_eq_none_iff use.name).mpr (h.missingOperator_iff.mp he)
    exact hdeclared _ (.undeclared hnone)
  · obtain ⟨op, hop, hgroup, hmissing⟩ := (h.missingGroup_iff name).mp he
    exact hdeclared _ (.dangling hop hgroup hmissing)

/-- Operators with groups, among groups whose relations all lead somewhere, have no errors but
conflicts. -/
theorem Consistent.eq_incomparable_of_mem (hr : r.Consistent) (hclosed : r.Closed)
    (h : r.ErrorStream earlier uses es) (huses : ∀ use ∈ uses, ∃ g, r.level use = .declared g)
    (he : e ∈ es) : ∃ p o, r.conflicting p o = true ∧ e = r.incomparable (p, o) := by
  -- on the blocks of the stream: levels that are declared leave only comparisons to report
  induction h with
  | nil earlier => cases he
  | cons hresolution hcomparisons _ ih =>
    obtain ⟨⟨g, hg⟩, hrest⟩ := List.forall_mem_cons.mp huses
    rw [hresolution.eq_nil hg, List.nil_append, List.mem_append] at he
    rcases he with he | he
    · cases hcomparisons e he with
      | deadEnd hp huse hlevel hne hedge =>
        -- a dead end would be the name of a group that is not registered
        have hmem := r.registered_level _ _ huse
        have hmem' := r.registered_level _ _ hlevel
        rw [hr.walk_missing_eq_nil hclosed _ hmem hmem' hne] at hedge
        cases hedge
      | conflict hp hconflict => exact ⟨_, _, hconflict, rfl⟩
    · exact ih hrest he

/-- Where all groups are registered and all operators have one, the errors of a fold are its
conflicts. -/
theorem Consistent.foldErrors_eq_conflicts (hr : r.Consistent) (hclosed : r.Closed)
    {t : Grouping Node OperatorUse} (ht : t.Settled r.combines)
    (huses : ∀ use ∈ t.operators, ∃ g, r.level use = .declared g) :
    r.foldErrors t.first t.rest = (t.conflicts r.conflicting).map r.incomparable := by
  rw [operators_eq] at huses
  rw [← filter_foldErrors_of_settled ht, eq_comm, List.filter_eq_self]
  intro e he
  obtain ⟨p, o, -, rfl⟩ :=
    hr.eq_incomparable_of_mem hclosed (r.errorStream_foldErrors t.first t.rest) huses he
  rfl

end OperatorFold.Registry
