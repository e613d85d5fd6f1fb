import OperatorFold.Proofs.Calls
import OperatorFold.Proofs.Fold.Missing
import OperatorFold.Proofs.Fold.Transfer
import OperatorFold.Proofs.Precedence.Reordering

/-! # Folds and the order of declarations

A fold asks a registry for the levels of operators and for the order of two levels. Registries with
the same declarations agree on both, so they combine the same operators, find the same ones in
conflict and fold every tree to the same tree.

Their errors come in the same order too. At each comparison, though, they may report other dead
ends, and it is only there that they differ (`MatchingErrors`): what is left of the errors when the
missing groups are passed over is the same (`MatchingErrors.filter_eq`).
-/

namespace OperatorFold

open Reporting Grouping

namespace Registry

variable {r r' : Registry} {es es' more more' : List PrecedenceError}

/-! ## Matching errors -/

/-- Errors that two registries report where they do the same: they agree except for what the
comparisons of levels report, and these compare the same levels. -/
inductive MatchingErrors (r r' : Registry) : List PrecedenceError → List PrecedenceError → Prop
  | nil : MatchingErrors r r' [] []
  | report {es es' : List PrecedenceError} (e : PrecedenceError)
      (h : MatchingErrors r r' es es') : MatchingErrors r r' (e :: es) (e :: es')
  | comparison {es es' : List PrecedenceError} (a b : Level) (h : MatchingErrors r r' es es') :
      MatchingErrors r r' ((r.compare a b).errors ++ es) ((r'.compare a b).errors ++ es')

namespace MatchingErrors

theorem append (h : MatchingErrors r r' es es') (hmore : MatchingErrors r r' more more') :
    MatchingErrors r r' (es ++ more) (es' ++ more') := by
  induction h with
  | nil => exact hmore
  | report e _ ih => exact ih.report e
  | comparison a b _ ih =>
    rw [List.append_assoc, List.append_assoc]
    exact ih.comparison a b

theorem refl (es : List PrecedenceError) : MatchingErrors r r' es es := by
  induction es with
  | nil => exact .nil
  | cons e es ih => exact ih.report e

/-- Matching errors are the same, in the same order, but for missing groups. -/
theorem filter_eq (h : MatchingErrors r r' es es') :
    es.filter (!·.isMissingGroup) = es'.filter (!·.isMissingGroup) := by
  -- nothing but missing groups is reported by a comparison, and these are left out
  have hcompare (r : Registry) (a b : Level) :
      (r.compare a b).errors.filter (!·.isMissingGroup) = [] := by
    rw [List.filter_eq_nil_iff]
    intro e he
    rw [r.isMissingGroup_of_mem_compare_errors a b e he]
    exact Bool.false_ne_true
  induction h with
  | nil => rfl
  | report e _ ih => rw [List.filter_cons, List.filter_cons, ih]
  | comparison a b _ ih =>
    rw [List.filter_append, List.filter_append, hcompare, hcompare, ih]

end MatchingErrors

/-! ## The same decisions -/

namespace SameDeclarations

variable (h : r.SameDeclarations r') (hr : r.Consistent) (hr' : r'.Consistent)
include h hr hr'

/-- Under the same declarations, operators are ordered in the same way. -/
theorem order_level_eq (p o : OperatorUse) :
    r.order (r.level o) (r.level p) = r'.order (r'.level o) (r'.level p) := by
  rw [← h.level_eq hr hr', ← h.level_eq hr hr']
  exact h.order_eq hr hr' (r.registered_level o) (r.registered_level p)

/-- Under the same declarations, the same operators combine. -/
theorem combines_eq : r.combines = r'.combines := by
  funext p o
  rw [Registry.combines_eq, Registry.combines_eq, h.order_level_eq hr hr', h.level_eq hr hr']

/-- Under the same declarations, the same operators are in conflict. -/
theorem conflicting_eq (p o : OperatorUse) : r.conflicting p o = r'.conflicting p o := by
  rw [conflicting, conflicting, h.order_level_eq hr hr', h.level_eq hr hr']

theorem incomparable_eq : r.incomparable = r'.incomparable := by
  funext pair
  rw [incomparable, incomparable, h.level_eq hr hr', h.level_eq hr hr']

/-! ## The same reports -/

/-- To settle two operators compares the same levels and finds the same conflict. -/
theorem matching_shouldCombine (p o : OperatorUse) :
    MatchingErrors r r' (r.shouldCombine (r.pending p) (r.pending o)).errors
      (r'.shouldCombine (r'.pending p) (r'.pending o)).errors := by
  rw [(r.yields_shouldCombine_order p o).errors_eq, (r'.yields_shouldCombine_order p o).errors_eq,
    ← h.conflicting_eq hr hr', ← h.incomparable_eq hr hr', ← h.level_eq hr hr',
    ← h.level_eq hr hr']
  exact (MatchingErrors.refl _).comparison _ _

/-- The errors in front of an operator match under the same declarations. -/
theorem matching_settleErrors (o : OperatorUse) (below : Waiting Node OperatorUse) :
    MatchingErrors r r' (r.settleErrors o below) (r'.settleErrors o below) := by
  induction below with
  | nil => exact .nil
  | cons entry below ih =>
    obtain ⟨left, p⟩ := entry
    have hfirst := h.matching_shouldCombine hr hr' p o
    rw [settleErrors, settleErrors, ← h.combines_eq hr hr']
    cases r.combines p o with
    | false => exact hfirst.append .nil
    | true => exact hfirst.append ih

/-- So do those of a whole scan. -/
theorem matching_scanErrors (rest : List (OperatorUse × Node)) (below : Waiting Node OperatorUse)
    (t : Grouping Node OperatorUse) :
    MatchingErrors r r' (r.scanErrors rest below t) (r'.scanErrors rest below t) := by
  induction rest generalizing below t with
  | nil => exact .nil
  | cons entry rest ih =>
    obtain ⟨o, n⟩ := entry
    rw [scanErrors, scanErrors, ← h.levelOf_eq hr hr', ← h.combines_eq hr hr']
    exact (MatchingErrors.refl _).append ((h.matching_settleErrors hr hr' o below).append (ih _ _))

/-- The same declarations fold every sequence to the same node. -/
theorem foldsAlike :
    r.FoldsAlike r' (fun _ => True) (fun _ => True) (MatchingErrors r r') := by
  intro elements m es hseq hbare _ hfold _
  obtain ⟨first, rest, rfl⟩ := Node.exists_spell hseq
  cases hfold.collect.symm.trans (r.yields_foldSequence hbare).collect
  refine ⟨_, ?_, h.matching_scanErrors hr hr' rest [] (operand first)⟩
  rw [grouping, h.combines_eq hr hr']
  exact r'.yields_foldSequence hbare

/-- The same declarations fold every tree to the same tree. -/
theorem exists_folds {n : Node} (hn : n.WellFormed) :
    ∃ m es es', r.Folds n m es ∧ r'.Folds n m es' ∧ MatchingErrors r r' es es' := by
  obtain ⟨m, es, hfolds, -⟩ := r.exists_folds hn
  have halike : r.FoldsAlike r' n.Uses (fun _ => True) (MatchingErrors r r') :=
    (h.foldsAlike hr hr').mono fun _ _ => trivial
  obtain ⟨es', hfolds', hmatch⟩ := hfolds.transfer .nil .append hn halike fun _ _ => trivial
  exact ⟨m, es, es', hfolds, hfolds', hmatch⟩

end SameDeclarations

/-! ## Loads in any order -/

/-- **The order of declarations does not matter.** Let declarations be loaded into an empty registry
in two orders, no two of them of the same key. All are recorded either way. The two registries
compare any names in the same way. They fold every tree to the same tree, and what they report on
the way differs only in the dead ends that comparisons meet: what is not about a missing group is
the same, in the same order. -/
theorem foldTree_perm {decls decls' : List Declaration}
    (hkeys : (decls.map Declaration.key).Nodup) (hperm : decls.Perm decls') :
    ∃ r r', (empty.call (.load (decls.map .declaration))).collect = .ok ⟨(r, .ok .loaded), []⟩ ∧
      (empty.call (.load (decls'.map .declaration))).collect = .ok ⟨(r', .ok .loaded), []⟩ ∧
      (∀ a b, ∃ o es es', (r.compareNames a b).collect = .ok ⟨o, es⟩ ∧
        (r'.compareNames a b).collect = .ok ⟨o, es'⟩) ∧
      ∀ n : Node, n.WellFormed → ∃ s es es', (r.foldTree n).collect = .ok ⟨s, es⟩ ∧
        (r'.foldTree n).collect = .ok ⟨s, es'⟩ ∧ MatchingErrors r r' es es' ∧
        es.filter (!·.isMissingGroup) = es'.filter (!·.isMissingGroup) := by
  have hload {decls : List Declaration} (hkeys : (decls.map Declaration.key).Nodup) :
      (empty.call (.load (decls.map .declaration))).collect =
        .ok ⟨(holding decls, .ok .loaded), []⟩ := by
    rw [call_load_collect, (holding_of_nodup_keys hkeys).2.2, holding]
  have hsame := sameDeclarations_of_perm hkeys hperm
  have hr := consistent_holding decls
  have hr' := consistent_holding decls'
  refine ⟨holding decls, holding decls', hload hkeys,
    hload ((hperm.map Declaration.key).nodup hkeys), fun a b => ?_, fun n hn => ?_⟩
  · obtain ⟨es, hy⟩ := (holding decls).yields_compareNames a b
    obtain ⟨es', hy'⟩ := (holding decls').yields_compareNames a b
    rw [hsame.nameOrder_eq hr hr'] at hy
    exact ⟨_, es, es', hy.collect, hy'.collect⟩
  · -- a tree folds alike under registries that hold the same declarations
    obtain ⟨m, es, es', hfolds, hfolds', hmatch⟩ := hsame.exists_folds hr hr' hn
    exact ⟨_, es, es', hfolds.yields_foldTree.collect, hfolds'.yields_foldTree.collect, hmatch,
      hmatch.filter_eq⟩

/-- Two groups below a third one, each above a group that is missing, and a group apart. -/
def scattered : List Declaration :=
  [.group (.declare "top" .none [] [] false .unknown),
    .group (.declare "left" .none ["west"] ["top"] false .unknown),
    .group (.declare "right" .none ["east"] ["top"] false .unknown),
    .group (.declare "apart" .none [] [] false .unknown),
    .operator { name := "+", groupName := some "top" },
    .operator { name := "-", groupName := some "apart" }]

/-- The sequence `u - v + w`. -/
def scatteredSequence : Node :=
  .sequence [.name "u" .unknown, .operator ⟨"-", .unknown⟩, .name "v" .unknown,
    .operator ⟨"+", .unknown⟩, .name "w" .unknown] .unknown

/-- The pair of operators that it reports. -/
def scatteredPair : PrecedenceError :=
  .incomparableOperators ⟨"-", .unknown⟩ "apart" ⟨"+", .unknown⟩ "top"

/-- Backwards, the declarations have the walk meet the missing groups the other way round, before
the same two operators are found incomparable. -/
theorem foldTree_perm_scattered :
    (scattered.map Declaration.key).Nodup ∧ scattered.Perm scattered.reverse ∧
      scatteredSequence.WellFormed ∧ ∃ r r' s,
        (empty.call (.load (scattered.map .declaration))).collect = .ok ⟨(r, .ok .loaded), []⟩ ∧
        (empty.call (.load (scattered.reverse.map .declaration))).collect =
          .ok ⟨(r', .ok .loaded), []⟩ ∧
        (r.foldTree scatteredSequence).collect = .ok ⟨s, [.missingGroup "east" .unknown,
          .missingGroup "west" .unknown, scatteredPair]⟩ ∧
        (r'.foldTree scatteredSequence).collect = .ok ⟨s, [.missingGroup "west" .unknown,
          .missingGroup "east" .unknown, scatteredPair]⟩ := by
  have hkeys : (scattered.map Declaration.key).Nodup := by decide
  have hperm : scattered.Perm scattered.reverse := scattered.reverse_perm.symm
  have hwell : scatteredSequence.WellFormed := by
    simp [scatteredSequence, Node.sequenceFault, Node.misplacedFrom, Node.isOperator]
  obtain ⟨r, r', hload, hload', -, hfolds⟩ := foldTree_perm hkeys hperm
  obtain ⟨s, es, es', hfold, hfold', -, -⟩ := hfolds scatteredSequence hwell
  cases (call_load_collect _ _).symm.trans hload
  cases (call_load_collect _ _).symm.trans hload'
  have herrors : ((holding scattered).foldTree scatteredSequence).errors = es :=
    errors_of_collect hfold
  have herrors' : ((holding scattered.reverse).foldTree scatteredSequence).errors = es' :=
    errors_of_collect hfold'
  have hes :
      es = [.missingGroup "east" .unknown, .missingGroup "west" .unknown, scatteredPair] := by
    rw [← herrors]
    decide +kernel
  have hes' : es' = [.missingGroup "west" .unknown, .missingGroup "east" .unknown,
      scatteredPair] := by
    rw [← herrors']
    decide +kernel
  rw [hes] at hfold
  rw [hes'] at hfold'
  exact ⟨hkeys, hperm, hwell, _, _, s, hload, hload', hfold, hfold'⟩

end Registry

end OperatorFold
