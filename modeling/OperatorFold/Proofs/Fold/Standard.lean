import OperatorFold.Proofs.Fold.Chains
import OperatorFold.Proofs.Fold.Outcome
import OperatorFold.Proofs.Precedence.Loading

/-! # Folds under the standard table

The groups of the standard table are no chain, for the default group and disjunction have no order.
Those that have infix operators are one (`pairwise_standardChain`), and all relations of the table
lead to groups of the table. So a sequence of its infix operators can only go wrong where operators
of one group without associativity meet.
-/

namespace OperatorFold.Registry

open Reporting Grouping

/-! ## The table -/

/-- The registry of the standard table. -/
def standard : Registry := holding Preset.standardDeclarations

/-- An operator of an expression that the standard table declares as an infix operator. -/
def IsStandardInfix (use : OperatorUse) : Prop :=
  ∃ op ∈ Preset.standardDeclarations.filterMap Declaration.operator?,
    op.fixity = .infixOp ∧ op.name = use.name

instance (use : OperatorUse) : Decidable (IsStandardInfix use) :=
  inferInstanceAs (Decidable (∃ op ∈ Preset.standardDeclarations.filterMap Declaration.operator?,
    op.fixity = .infixOp ∧ op.name = use.name))

/-- The groups of the infix operators, from the tightest one on. -/
def standardChain : List PrecedenceGroup :=
  ["BitwiseShiftPrecedence", "MultiplicationPrecedence", "AdditionPrecedence",
    "RangeFormationPrecedence", "NilCoalescingPrecedence", "ComparisonPrecedence",
    "LogicalConjunctionPrecedence", "LogicalDisjunctionPrecedence",
    "AssignmentPrecedence"].filterMap standard.group?

/-- The standard declarations name only groups that they declare. -/
theorem closed_standard : standard.Closed := by
  unfold Closed
  decide +kernel

/-- Each group of the chain is above all that follow it. -/
theorem pairwise_standardChain : standardChain.Pairwise fun g h =>
    standard.order (.declared g) (.declared h) = .higher ∧
      standard.order (.declared h) (.declared g) = .lower := by
  decide +kernel

/-- Every infix operator of the standard declarations is found, in a group of the chain. -/
theorem group?_of_standardInfix :
    ∀ op ∈ Preset.standardDeclarations.filterMap Declaration.operator?, op.fixity = .infixOp →
      standard.operator? op.name .infixOp = some op ∧
        ∃ g ∈ standardChain, op.groupName.bind standard.group? = some g := by
  decide +kernel

variable {use : OperatorUse} {uses : List OperatorUse}

/-- The infix operators of the table fold at the levels of the chain. -/
theorem IsStandardInfix.exists_level (h : IsStandardInfix use) :
    ∃ g ∈ standardChain, standard.level use = .declared g := by
  obtain ⟨op, hmem, hlisted, hname⟩ := h
  obtain ⟨hop, g, hg, hbind⟩ := group?_of_standardInfix op hmem hlisted
  obtain ⟨name, hgroup, hfound⟩ := Option.bind_eq_some_iff.mp hbind
  rw [hname] at hop
  refine ⟨g, hg, ?_⟩
  rw [level, levelOf]
  simp only [hop, hgroup, hfound]
  exact (yields_pure _).value_eq

/-- The standard infix operators are in a linear order. -/
theorem linear_standard (h : ∀ use ∈ uses, IsStandardInfix use) : standard.Linear uses := by
  -- two groups of the chain are the same, or one of them is above the other
  have hchain := List.Pairwise.forall_of_forall_of_flip (l := standardChain)
    (R := fun g k => standard.order (.declared g) (.declared k) ≠ .unordered ∧
      (standard.order (.declared g) (.declared k) = .higher →
        standard.order (.declared k) (.declared g) ≠ .higher))
    (fun g _ => by simp [standard.order_self])
    (pairwise_standardChain.imp fun ⟨hhigher, hlower⟩ => by simp [hhigher, hlower])
    (pairwise_standardChain.imp fun ⟨hhigher, hlower⟩ => by simp [hhigher, hlower, flip])
  constructor
  · intro p hp q hq
    obtain ⟨g, hg, hlevel⟩ := (h p hp).exists_level
    obtain ⟨k, hk, hlevel'⟩ := (h q hq).exists_level
    rw [hlevel, hlevel']
    exact (hchain hg hk).1
  · intro p hp q hq
    obtain ⟨g, hg, hlevel⟩ := (h p hp).exists_level
    obtain ⟨k, hk, hlevel'⟩ := (h q hq).exists_level
    rw [hlevel, hlevel']
    exact (hchain hg hk).2

/-! ## Sequences -/

/-- **Under the standard table only chains without associativity are errors.** The table loads
without an error. Take any sequence of its infix operators. Whatever a run reports, under any limit,
is about two operators of one group without associativity that have only tighter ones between them.
A run to the end reports something exactly if there are two such operators; otherwise its tree is
valid, and every operator stands over tighter ones or over its own group on the side to which that
associates. There is a run to the end if no operand is a bare node. -/
theorem foldSequence_standard :
    Preset.standard.registry.failFast = .ok standard ∧
      ∀ (elements : List Node) (uses : List OperatorUse), Node.sequenceFault elements = none →
        Node.operators elements = uses.map .operator → (∀ use ∈ uses, IsStandardInfix use) →
        (∀ (limit : Limit) (j : Journal), ∃ es,
          (standard.foldSequence elements limit j).2.errors = j.errors ++ es ∧
          ∀ e ∈ es, ∃ p o, standard.Chained uses p o ∧
            e = .incomparableOperators p (standard.level p).name o (standard.level o).name) ∧
        (∀ outcome, (standard.foldSequence elements).collect = .ok outcome →
          (outcome.errors ≠ [] ↔ ∃ p o, standard.Chained uses p o) ∧
          (outcome.errors = [] → ∃ t : Grouping Node OperatorUse, t.elements = elements ∧
            outcome.value = t.node ∧ standard.Valid t)) ∧
        (Node.bare ∉ elements →
          ∃ outcome, (standard.foldSequence elements).collect = .ok outcome) := by
  constructor
  · obtain ⟨j, hrun, -⟩ := registry_completes .standard (some 1) {} (by simp [Limit.Allows])
    rw [failFast, run, hrun]
    rfl
  intro elements uses hseq huses hlisted
  have hr : standard.Consistent := consistent_holding _
  obtain ⟨t, rfl, hsettled⟩ := standard.exists_settled hseq
  obtain rfl : t.operators = uses :=
    List.map_injective_iff.mpr (fun _ _ => Node.operator.inj)
      (t.operators_elements.symm.trans huses)
  have hlinear := linear_standard hlisted
  -- what is reported is what is in conflict, and that is what is chained
  have hchained {p o : OperatorUse} :
      (p, o) ∈ t.conflicts standard.conflicting ↔ standard.Chained t.operators p o :=
    hr.mem_conflicts_iff hlinear hsettled
  have herrors : standard.foldErrors t.first t.rest =
      (t.conflicts standard.conflicting).map standard.incomparable := by
    refine hr.foldErrors_eq_conflicts closed_standard hsettled fun use huse => ?_
    obtain ⟨g, -, hg⟩ := (hlisted use huse).exists_level
    exact ⟨g, hg⟩
  have hfold := standard.foldSequence_orFaults_of_settled hsettled
  rw [herrors] at hfold
  refine ⟨fun limit j => ?_, fun outcome houtcome => ?_, fun hbare => ?_⟩
  · obtain ⟨es, hes, hjournal⟩ := hfold.exists_errors limit j
    refine ⟨es, hjournal, fun e he => ?_⟩
    obtain ⟨⟨p, o⟩, hpair, rfl⟩ := List.mem_map.mp (hes.subset he)
    exact ⟨p, o, hchained.mp hpair, rfl⟩
  · obtain rfl := hfold.outcome_eq houtcome
    constructor
    · rw [ne_eq, List.map_eq_nil_iff]
      constructor
      · intro hne
        obtain ⟨⟨p, o⟩, hpair⟩ := List.exists_mem_of_ne_nil _ hne
        exact ⟨p, o, hchained.mp hpair⟩
      · rintro ⟨p, o, h⟩
        exact List.ne_nil_of_mem (hchained.mpr h)
    · intro hnone
      exact ⟨t, rfl, rfl, (hr.valid_iff hlinear.antisymmetric).mpr
        ⟨hsettled, List.map_eq_nil_iff.mp hnone⟩⟩
  · exact ⟨_, (yields_foldSequence_of_settled hsettled hbare).collect⟩

/-- What stands behind the first operand of `a == b + c < d`. -/
def comparisonRest : List (OperatorUse × Node) :=
  [(⟨"==", .unknown⟩, .name "b" .unknown), (⟨"+", .unknown⟩, .name "c" .unknown),
    (⟨"<", .unknown⟩, .name "d" .unknown)]

/-- What stands behind the first operand of `a = b ?? c ?? d - e - f`. -/
def assignmentRest : List (OperatorUse × Node) :=
  [(⟨"=", .unknown⟩, .name "b" .unknown), (⟨"??", .unknown⟩, .name "c" .unknown),
    (⟨"??", .unknown⟩, .name "d" .unknown), (⟨"-", .unknown⟩, .name "e" .unknown),
    (⟨"-", .unknown⟩, .name "f" .unknown)]

/-- A comparison chained over a sum is an error, and chains to both sides are none. -/
theorem foldSequence_standard_chains :
    (∀ use ∈ (comparisonRest ++ assignmentRest).map Prod.fst, IsStandardInfix use) ∧
      (∃ outcome, (standard.foldSequence
          (.name "a" .unknown :: Node.spell comparisonRest)).collect = .ok outcome ∧
        standard.Chained (comparisonRest.map Prod.fst) ⟨"==", .unknown⟩ ⟨"<", .unknown⟩ ∧
        outcome.errors ≠ []) ∧
      ∃ outcome, (standard.foldSequence
          (.name "a" .unknown :: Node.spell assignmentRest)).collect = .ok outcome ∧
        outcome.errors = [] ∧ ∃ t : Grouping Node OperatorUse,
          t.elements = .name "a" .unknown :: Node.spell assignmentRest ∧
          outcome.value = t.node ∧ standard.Valid t := by
  have hlisted : ∀ use ∈ (comparisonRest ++ assignmentRest).map Prod.fst, IsStandardInfix use := by
    decide +kernel
  obtain ⟨hcomparison, hassignment⟩ := List.forall_mem_append.mp (List.map_append ▸ hlisted)
  obtain ⟨-, hall⟩ := foldSequence_standard
  refine ⟨hlisted, ?_, ?_⟩
  · obtain ⟨-, herrors, hruns⟩ := hall (.name "a" .unknown :: Node.spell comparisonRest)
      (comparisonRest.map Prod.fst) (by decide) rfl hcomparison
    obtain ⟨outcome, hrun⟩ := hruns (by simp [comparisonRest, Node.spell])
    have hlevels : standard.level ⟨"==", .unknown⟩ = standard.level ⟨"<", .unknown⟩ ∧
        (standard.level ⟨"<", .unknown⟩).associativity = .none ∧
        ∀ q ∈ [⟨"+", .unknown⟩], standard.order (standard.level q)
          (standard.level ⟨"<", .unknown⟩) = .higher := by decide +kernel
    obtain ⟨hlevel, hnone, hbetween⟩ := hlevels
    have hchained : standard.Chained (comparisonRest.map Prod.fst) ⟨"==", .unknown⟩
        ⟨"<", .unknown⟩ := ⟨hlevel, hnone, [], [⟨"+", .unknown⟩], [], rfl, hbetween⟩
    exact ⟨outcome, hrun, hchained, (herrors outcome hrun).1.mpr ⟨_, _, hchained⟩⟩
  · obtain ⟨-, herrors, hruns⟩ := hall (.name "a" .unknown :: Node.spell assignmentRest)
      (assignmentRest.map Prod.fst) (by decide) rfl hassignment
    obtain ⟨outcome, hrun⟩ := hruns (by simp [assignmentRest, Node.spell])
    have hnone : outcome.errors = [] := (errors_of_collect hrun).symm.trans (by decide +kernel)
    exact ⟨outcome, hrun, hnone, (herrors outcome hrun).2 hnone⟩

end OperatorFold.Registry
