import OperatorFold.Proofs.Fold.Sequence
import OperatorFold.Proofs.Grouping.Nested
import OperatorFold.Proofs.Precedence.Order

/-! # Canonical folds

A grouping is valid if every operator stands over tighter ones, or over its own group on the side to
which that group associates. This is a condition on all pairs of an operator and one below it, while
the fold only ever compares an operator with the one on top of the stack. Where no two groups are
each higher than the other, the order of the registry is transitive enough to carry the answer of
the touching pairs to all pairs (`Consistent.composes`). Then a sequence folds without incomparable
operators exactly if it has a valid grouping, and this one is the fold.
-/

namespace OperatorFold.Registry

open Grouping

/-- An operator may stand below another one on the side to which `side` associates: its level is
higher, or both are in one group of this associativity. -/
def Fits (r : Registry) (side : Associativity) (p o : OperatorUse) : Prop :=
  r.order (r.level p) (r.level o) = .higher ∨
    r.level p = r.level o ∧ (r.level o).associativity = side

/-- Every operator stands over tighter ones, or over its own group on the side to which it
associates. -/
def Valid (r : Registry) (t : Grouping Node OperatorUse) : Prop :=
  t.Nested (r.Fits .left) (r.Fits .right)

/-- Among some operators no two levels are each higher than the other. -/
def Antisymmetric (r : Registry) (ops : List OperatorUse) : Prop :=
  ∀ p ∈ ops, ∀ q ∈ ops, r.order (r.level p) (r.level q) = .higher →
    r.order (r.level q) (r.level p) ≠ .higher

variable {r : Registry} {side side' : Associativity} {ops : List OperatorUse}
  {p q o : OperatorUse}

/-- What fits under an operator that fits under another one fits under that, too, among operators
without two-way relations. -/
theorem Fits.trans (hr : r.Consistent) (hanti : r.Antisymmetric ops) (hp : p ∈ ops) (hq : q ∈ ops)
    (hpq : r.Fits side p q) (hqo : r.Fits side' q o) : r.Fits side' p o := by
  rcases hpq with hpq | ⟨hpq, hside⟩
  · rcases hqo with hqo | ⟨hqo, hside'⟩
    · -- a return from `q` to the level of `p` is what `hanti` rules out
      have htrans := hr.order_higher_trans (r.registered_level p) (r.registered_level q)
        (r.registered_level o) hpq hqo
      rcases htrans with heq | hpo
      · exact absurd (heq ▸ hqo) (hanti p hp q hq hpq)
      · exact .inl hpo
    · exact .inl (hqo ▸ hpq)
  · rcases hqo with hqo | ⟨hqo, hside'⟩
    · exact .inl (hpq ▸ hqo)
    · exact .inr ⟨hpq.trans hqo, hside'⟩

/-! ## Touching pairs -/

/-- An operator that combines without a conflict fits on the left. -/
theorem Consistent.fits_left (hr : r.Consistent) (hcombines : r.combines p o = true)
    (hnone : r.conflicting p o = false) : r.Fits .left p o := by
  rw [combines_eq] at hcombines
  unfold conflicting at hnone
  -- to combine leaves a lower or an equal level, and an unordered one would be a conflict
  cases horder : r.order (r.level o) (r.level p) with
  | higher => rw [horder] at hcombines; cases hcombines
  | lower =>
    exact .inl (hr.order_higher_of_lower (r.registered_level o) (r.registered_level p) horder)
  | equal =>
    rw [horder] at hcombines hnone
    have hlevel := (hr.order_eq_equal_iff (r.registered_level o) (r.registered_level p)).mp horder
    have hright : (r.level o).associativity ≠ .right := of_decide_eq_true hcombines
    have hnone : (r.level o).associativity ≠ .none := of_decide_eq_false hnone
    refine .inr ⟨hlevel.symm, ?_⟩
    cases hassoc : (r.level o).associativity with
    | left => rfl
    | right => exact absurd hassoc hright
    | none => exact absurd hassoc hnone
  | unordered => rw [horder] at hnone; cases hnone

/-- An operator for which another one keeps waiting fits on its right. -/
theorem Consistent.fits_right (hr : r.Consistent) (hwaits : r.combines o q = false) :
    r.Fits .right q o := by
  rw [combines_eq] at hwaits
  cases horder : r.order (r.level q) (r.level o) with
  | higher => exact .inl horder
  | lower => rw [horder] at hwaits; cases hwaits
  | equal =>
    rw [horder] at hwaits
    have hlevel := (hr.order_eq_equal_iff (r.registered_level q) (r.registered_level o)).mp horder
    have hright : ¬(r.level q).associativity ≠ .right := of_decide_eq_false hwaits
    exact .inr ⟨hlevel, hlevel ▸ not_not.mp hright⟩
  | unordered => rw [horder] at hwaits; cases hwaits

/-- Among operators without mutually higher levels, the answers for touching pairs compose. -/
theorem Consistent.composes (hr : r.Consistent) (hanti : r.Antisymmetric ops) :
    Composes (r.Fits .left) (r.Fits .right) r.combines r.conflicting ops where
  left _ _ _ _ hcombines hnone := hr.fits_left hcombines hnone
  right _ _ _ _ hwaits := hr.fits_right hwaits
  below_left _ hp _ hq _ _ hpq hqo := by
    rcases hpq with hpq | hpq
    · exact hpq.trans hr hanti hp hq hqo
    · exact hpq.trans hr hanti hp hq hqo
  below_right _ hp _ hq _ _ hpq hqo := by
    rcases hpq with hpq | hpq
    · exact hpq.trans hr hanti hp hq hqo
    · exact hpq.trans hr hanti hp hq hqo

/-- What fits on the left combines without a conflict. -/
theorem Fits.combines (hr : r.Consistent) (hanti : r.Antisymmetric ops) (hp : p ∈ ops)
    (ho : o ∈ ops) (h : r.Fits .left p o) :
    r.combines p o = true ∧ r.conflicting p o = false := by
  rw [combines_eq, conflicting]
  rcases h with hhigher | ⟨hlevel, hassoc⟩
  · have hlower := hr.order_lower_of_higher (r.registered_level p) (r.registered_level o) hhigher
      (hanti p hp o ho hhigher)
    rw [hlower]
    exact ⟨rfl, rfl⟩
  · have hequal := (hr.order_eq_equal_iff (r.registered_level o) (r.registered_level p)).mpr
      hlevel.symm
    rw [hequal, hassoc]
    exact ⟨rfl, rfl⟩

/-- What fits on the right does not make the operator above it combine. -/
theorem Fits.waits (hr : r.Consistent) (h : r.Fits .right q o) : r.combines o q = false := by
  rw [combines_eq]
  rcases h with hhigher | ⟨hlevel, hassoc⟩
  · rw [hhigher]
  · have hequal := (hr.order_eq_equal_iff (r.registered_level q) (r.registered_level o)).mpr hlevel
    rw [hequal, hlevel, hassoc]
    rfl

/-! ## Valid groupings -/

/-- A grouping is valid exactly if it is settled and has no conflicts. -/
theorem Consistent.valid_iff (hr : r.Consistent) {t : Grouping Node OperatorUse}
    (hanti : r.Antisymmetric t.operators) :
    r.Valid t ↔ t.Settled r.combines ∧ t.conflicts r.conflicting = [] := by
  constructor
  · intro hvalid
    exact hvalid.settled (List.Subset.refl _) (fun p hp o ho hfits => hfits.combines hr hanti hp ho)
      (fun q _ o _ hfits => hfits.waits hr)
  · rintro ⟨hsettled, hnone⟩
    exact hsettled.nested (List.Subset.refl _) (hr.composes hanti) hnone

/-- **Canonical folds.** Over a loaded registry, take a sequence no two operators of which have
levels that are each higher than the other. Its fold reports no incomparable operators if and only
if the sequence has a valid grouping; then the fold is this grouping, and there is no other valid
one. -/
theorem foldSequence_valid (hr : r.Reachable) {elements : List Node}
    (hseq : Node.sequenceFault elements = none) (hbare : Node.bare ∉ elements)
    (hanti : ∀ p q, .operator p ∈ elements → .operator q ∈ elements →
      ¬(r.order (r.level p) (r.level q) = .higher ∧ r.order (r.level q) (r.level p) = .higher)) :
    ∃ outcome, (r.foldSequence elements).collect = .ok outcome ∧
      ((∀ e ∈ outcome.errors, e.isIncomparable = false) ↔
        ∃ t : Grouping Node OperatorUse, t.elements = elements ∧ r.Valid t) ∧
      ∀ t : Grouping Node OperatorUse, t.elements = elements → r.Valid t →
        outcome.value = t.node ∧
          ∀ t' : Grouping Node OperatorUse, t'.elements = elements → r.Valid t' → t' = t := by
  obtain ⟨t, es, helements, hsettled, hfold, hincomparable⟩ :=
    r.exists_yields_foldSequence hseq hbare
  have hvalid {t' : Grouping Node OperatorUse} (ht' : t'.elements = elements) :
      r.Valid t' ↔ t'.Settled r.combines ∧ t'.conflicts r.conflicting = [] := by
    have hmem : ∀ use ∈ t'.operators, .operator use ∈ elements := by
      intro use huse
      rw [← ht']
      exact mem_elements.mpr (.inr ⟨use, huse, rfl⟩)
    apply hr.consistent.valid_iff
    intro p hp q hq hpq hqp
    exact hanti p q (hmem p hp) (hmem q hq) ⟨hpq, hqp⟩
  -- a valid grouping is settled, and there is only one settled grouping
  have hunique {t' : Grouping Node OperatorUse} (ht' : t'.elements = elements)
      (h : r.Valid t') : t' = t :=
    ((hvalid ht').mp h).1.eq_of_elements_eq hsettled (ht'.trans helements.symm)
  have herrors : (∀ e ∈ es, e.isIncomparable = false) ↔ t.conflicts r.conflicting = [] := by
    rw [← List.map_eq_nil_iff (f := r.incomparable), ← hincomparable, List.filter_eq_nil_iff]
    simp only [Bool.not_eq_true]
  refine ⟨_, hfold.collect, herrors.trans ⟨fun hnone => ?_, ?_⟩, fun t' ht' h' => ?_⟩
  · exact ⟨t, helements, (hvalid helements).mpr ⟨hsettled, hnone⟩⟩
  · rintro ⟨t', ht', h'⟩
    rw [← hunique ht' h']
    exact ((hvalid ht').mp h').2
  · refine ⟨congrArg node (hunique ht' h').symm, fun t'' ht'' h'' => ?_⟩
    rw [hunique ht' h', hunique ht'' h'']

/-- The registry of a chain of four groups that associate in all three ways. -/
def chained : Registry :=
  List.foldl recordItem empty [.declaration (.group (.declare "or" .left [] [] false .unknown)),
    .declaration (.group (.declare "and" .left ["or"] ["equal"] false .unknown)),
    .declaration (.group (.declare "equal" .none [] [] false .unknown)),
    .declaration (.group (.declare "power" .right ["equal"] [] false .unknown)),
    .declaration (.operator { name := "||", groupName := some "or" }),
    .declaration (.operator { name := "&&", groupName := some "and" }),
    .declaration (.operator { name := "==", groupName := some "equal" }),
    .declaration (.operator { name := "^", groupName := some "power" })]

/-- The elements of `a ? b && c == d ^ e ^ f || g ? h`, where `?` is not declared. -/
def mixedChain : List Node :=
  .name "a" .unknown :: Node.spell
    [(⟨"?", .unknown⟩, .name "b" .unknown), (⟨"&&", .unknown⟩, .name "c" .unknown),
      (⟨"==", .unknown⟩, .name "d" .unknown), (⟨"^", .unknown⟩, .name "e" .unknown),
      (⟨"^", .unknown⟩, .name "f" .unknown), (⟨"||", .unknown⟩, .name "g" .unknown),
      (⟨"?", .unknown⟩, .name "h" .unknown)]

/-- The operators of that sequence. -/
def mixedUses : List OperatorUse := ["?", "&&", "==", "^", "||"].map fun name => ⟨name, .unknown⟩

/-- A sequence with operators of all associativities, one of them undeclared, has a valid grouping
and folds to it. -/
theorem foldSequence_mixedChain :
    chained.Reachable ∧ Node.sequenceFault mixedChain = none ∧ Node.bare ∉ mixedChain ∧
      ∃ (t : Grouping Node OperatorUse) (es : List PrecedenceError),
        (chained.foldSequence mixedChain).collect = .ok ⟨t.node, es⟩ ∧
        t.elements = mixedChain ∧ chained.Valid t ∧
        es = [.missingOperator "?" .unknown, .missingOperator "?" .unknown] := by
  have hr : chained.Reachable := Reachable.empty.record _
  have hseq : Node.sequenceFault mixedChain = none := by decide
  have hbare : Node.bare ∉ mixedChain := by simp [mixedChain, Node.spell]
  have huses : ∀ p, .operator p ∈ mixedChain → p ∈ mixedUses := by
    simp +contextual [mixedChain, mixedUses, Node.spell]
  have hanti : chained.Antisymmetric mixedUses := by
    unfold Antisymmetric
    decide +kernel
  obtain ⟨⟨n, es⟩, hrun, hvalid, hfold⟩ := foldSequence_valid hr hseq hbare fun p q hp hq h =>
    hanti p (huses p hp) q (huses q hq) h.1 h.2
  have herrors : es = [.missingOperator "?" .unknown, .missingOperator "?" .unknown] :=
    (Reporting.errors_of_collect hrun).symm.trans (by decide +kernel)
  have hnone : ∀ e ∈ es, e.isIncomparable = false := by
    rw [herrors]
    decide
  obtain ⟨t, ht, htvalid⟩ := hvalid.mp hnone
  have hn : n = t.node := (hfold t ht htvalid).1
  exact ⟨hr, hseq, hbare, t, es, hn ▸ hrun, ht, htvalid, herrors⟩

end OperatorFold.Registry
