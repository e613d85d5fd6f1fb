import OperatorFold.Proofs.Fold.Sequence
import OperatorFold.Proofs.Precedence.Registry

/-! # The shape of a fold

Whatever the registry, the fold of a sequence is its one settled grouping, and the pairs of
operators that it reports as incomparable are the conflicts of this grouping. So the result tells
the whole run, also where errors degraded it.
-/

namespace OperatorFold.Registry

open Grouping

/-- **The fold of a sequence is its settled grouping.** The tree is the only one over the elements
in which, at every operator, all operators on the right spine of its left part combine before it and
none on the left spine of its right part does. The pairs reported as incomparable are, for one
operator after another, those in conflict with it on the right spine of its left part, the innermost
first. Numbering the operators tells equal ones apart: none is the left one of two errors. Both
groups of an error have one name exactly if they are equal in order. -/
theorem foldSequence_settled (r : Registry) {elements : List Node}
    (hseq : Node.sequenceFault elements = none) (hbare : Node.bare ∉ elements) :
    ∃ (t : Grouping Node OperatorUse) (es : List PrecedenceError),
      (r.foldSequence elements).collect = .ok ⟨t.node, es⟩ ∧
      (t.elements = elements ∧ t.Settled r.combines) ∧
      (∀ t' : Grouping Node OperatorUse, t'.elements = elements → t'.Settled r.combines → t' = t) ∧
      es.filter (·.isIncomparable) = (t.numberedConflicts r.conflicting).map (fun pair =>
        .incomparableOperators pair.1.1 (r.level pair.1.1).name
          pair.2.1 (r.level pair.2.1).name) ∧
      ((t.numberedConflicts r.conflicting).map fun pair => pair.1.2).Nodup ∧
      ∀ pair ∈ t.numberedConflicts r.conflicting,
        ((r.level pair.1.1).name = (r.level pair.2.1).name ↔
          r.order (r.level pair.2.1) (r.level pair.1.1) = .equal) := by
  -- the scan comes to a settled grouping, and there is only one of them over these elements
  obtain ⟨t, es, helements, hsettled, hfold, herrors⟩ := r.exists_yields_foldSequence hseq hbare
  refine ⟨t, es, hfold.collect, ⟨helements, hsettled⟩, fun t' ht' hs' => ?_, ?_, ?_,
    fun pair hpair => ?_⟩
  · exact hs'.eq_of_elements_eq hsettled (ht'.trans helements.symm)
  · rw [herrors, ← map_numberedConflicts, List.map_map]
    rfl
  · exact nodup_numberedConflicts t
  · exact r.level_name_eq_iff (of_mem_conflicts hpair).2.2

/-- The registry of two groups in order and one apart from them, none of them associative. -/
def unrelated : Registry :=
  List.foldl recordItem empty [.declaration (.group (.declare "low" .none [] [] false .unknown)),
    .declaration (.group (.declare "high" .none ["low"] [] false .unknown)),
    .declaration (.group (.declare "apart" .none [] [] false .unknown)),
    .declaration (.operator { name := "+", groupName := some "low" }),
    .declaration (.operator { name := "*", groupName := some "high" }),
    .declaration (.operator { name := "~", groupName := some "apart" })]

/-- The elements of `v + w * x ~ y ~ z`. -/
def unrelatedChain : List Node :=
  [.name "v" .unknown, .operator ⟨"+", .unknown⟩, .name "w" .unknown, .operator ⟨"*", .unknown⟩,
    .name "x" .unknown, .operator ⟨"~", .unknown⟩, .name "y" .unknown, .operator ⟨"~", .unknown⟩,
    .name "z" .unknown]

/-- The pairs that it reports: the first `~` with both operators on its left, from the inner one
outwards, and the second `~` with the first. -/
def unrelatedPairs : List PrecedenceError :=
  [.incomparableOperators ⟨"*", .unknown⟩ "high" ⟨"~", .unknown⟩ "apart",
    .incomparableOperators ⟨"+", .unknown⟩ "low" ⟨"~", .unknown⟩ "apart",
    .incomparableOperators ⟨"~", .unknown⟩ "apart" ⟨"~", .unknown⟩ "apart"]

/-- A fold that errors degrade three times is settled, too. -/
theorem foldSequence_unrelatedChain :
    Node.sequenceFault unrelatedChain = none ∧ Node.bare ∉ unrelatedChain ∧
      ∃ (t : Grouping Node OperatorUse) (es : List PrecedenceError),
        (unrelated.foldSequence unrelatedChain).collect = .ok ⟨t.node, es⟩ ∧
        t.elements = unrelatedChain ∧ t.Settled unrelated.combines ∧
        es.filter (·.isIncomparable) = unrelatedPairs := by
  have hseq : Node.sequenceFault unrelatedChain = none := by decide
  have hbare : Node.bare ∉ unrelatedChain := by simp [unrelatedChain]
  obtain ⟨t, es, hrun, ⟨helements, hsettled⟩, -⟩ := foldSequence_settled unrelated hseq hbare
  refine ⟨hseq, hbare, t, es, hrun, helements, hsettled, ?_⟩
  have herrors : (unrelated.foldSequence unrelatedChain).errors = es :=
    Reporting.errors_of_collect hrun
  rw [← herrors]
  decide +kernel

end OperatorFold.Registry
