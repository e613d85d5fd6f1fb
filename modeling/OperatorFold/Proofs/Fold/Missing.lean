import OperatorFold.Proofs.Fold.Sequence

/-! # Errors about missing declarations

An operator that is not declared is reported where it is read, once and before anything else about
it (`filter_levelOf_errors_missingOperator`). No comparison reports one: the errors of comparisons
are all about missing groups. So the operators that a fold reports as missing are those of its
sequence that are not declared, in their order (`filter_foldErrors_missingOperator`).
-/

namespace OperatorFold

open Reporting Grouping

namespace PrecedenceError

/-- An error that a group is not declared. -/
def isMissingGroup : PrecedenceError → Bool
  | missingGroup .. => true
  | _ => false

/-- An error that an operator is not declared. -/
def isMissingOperator : PrecedenceError → Bool
  | missingOperator .. => true
  | _ => false

end PrecedenceError

namespace Registry

/-! ## Comparisons -/

/-- The errors of a comparison are about the dead ends of walks between two declared groups of
different names. -/
theorem of_mem_compare_errors {r : Registry} {a b : Level} {e : PrecedenceError}
    (he : e ∈ (r.compare a b).errors) :
    ∃ (g h : PrecedenceGroup) (d : Direction) (edge : Edge), a = .declared g ∧ b = .declared h ∧
      g.name ≠ h.name ∧ edge ∈ (r.walk d g h.name).1.missing ∧
      e = .missingGroup edge.target edge.span := by
  match a, b with
  | .implicit, .implicit | .implicit, .declared _ | .declared _, .implicit => cases he
  | .declared g, .declared h =>
    by_cases hne : g.name = h.name
    · rw [(r.yields_compare_of_name_eq hne).errors_eq] at he
      cases he
    · have hwalked : ∃ d, e ∈ deadEnds (r.walk d g h.name).1 := by
        obtain ⟨_, hy⟩ | ⟨_, _, hy⟩ | ⟨_, _, hy⟩ := r.compare_cases hne
        · exact ⟨.down, hy.errors_eq ▸ he⟩
        all_goals
          rw [hy.errors_eq, List.mem_append] at he
          exact he.elim (⟨.down, ·⟩) (⟨.up, ·⟩)
      obtain ⟨d, he⟩ := hwalked
      obtain ⟨edge, hedge, rfl⟩ := List.mem_map.mp he
      exact ⟨g, h, d, edge, rfl, rfl, hne, hedge, rfl⟩

/-- The errors of a comparison are all about missing groups. -/
theorem isMissingGroup_of_mem_compare_errors (r : Registry) (a b : Level) :
    ∀ e ∈ (r.compare a b).errors, e.isMissingGroup = true := by
  intro e he
  obtain ⟨_, _, _, _, -, -, -, -, rfl⟩ := of_mem_compare_errors he
  rfl

/-- What a fold reports of two operators is about missing groups or a conflict. -/
theorem filter_shouldCombine_errors_missingOperator (r : Registry) (p o : OperatorUse) :
    (r.shouldCombine (r.pending p) (r.pending o)).errors.filter (·.isMissingOperator) = [] := by
  rw [List.filter_eq_nil_iff, (r.yields_shouldCombine_order p o).errors_eq]
  intro e he
  rw [List.mem_append] at he
  rcases he with he | he
  · have hgroup := r.isMissingGroup_of_mem_compare_errors _ _ e he
    cases e <;> first | exact Bool.false_ne_true | cases hgroup
  · split at he
    · rw [List.mem_singleton.mp he]
      exact Bool.false_ne_true
    · cases he

/-! ## Operators -/

variable (r : Registry)

/-- The error of an operator that is not declared. -/
def missingOperator? (use : OperatorUse) : Option PrecedenceError :=
  match r.operator? use.name .infixOp with
  | none => some (.missingOperator use.name use.span)
  | some _ => none

/-- On the way to the level of an operator, at most this operator is reported as missing. -/
theorem filter_levelOf_errors_missingOperator (use : OperatorUse) :
    (r.levelOf use).errors.filter (·.isMissingOperator) = (r.missingOperator? use).toList := by
  obtain ⟨hop, hy⟩ | ⟨_, hop, _, hy⟩ | ⟨_, _, hop, _, _, hy⟩ | ⟨_, _, _, hop, _, _, hy⟩ :=
    r.levelOf_cases use <;> rw [hy.errors_eq, missingOperator?, hop] <;> rfl

/-- No operator is reported as missing when it is compared with those that wait. -/
theorem filter_settleErrors_missingOperator (o : OperatorUse) (below : Waiting Node OperatorUse) :
    (r.settleErrors o below).filter (·.isMissingOperator) = [] := by
  induction below with
  | nil => rfl
  | cons entry below ih =>
    obtain ⟨left, p⟩ := entry
    rw [settleErrors, List.filter_append, filter_shouldCombine_errors_missingOperator]
    split
    · exact ih
    · rfl

/-- A scan reports each missing operator once, where it comes to it. -/
theorem filter_scanErrors_missingOperator (rest : List (OperatorUse × Node))
    (below : Waiting Node OperatorUse) (t : Grouping Node OperatorUse) :
    (r.scanErrors rest below t).filter (·.isMissingOperator) =
      rest.filterMap fun entry => r.missingOperator? entry.1 := by
  induction rest generalizing below t with
  | nil => rfl
  | cons entry rest ih =>
    obtain ⟨o, n⟩ := entry
    rw [scanErrors, List.filter_append, List.filter_append, ih,
      filter_levelOf_errors_missingOperator, filter_settleErrors_missingOperator,
      List.filterMap_cons, List.nil_append]
    cases r.missingOperator? o <;> rfl

/-- A fold reports the operators of its sequence that are not declared, one after another. -/
theorem filter_foldErrors_missingOperator (first : Node) (rest : List (OperatorUse × Node)) :
    (r.foldErrors first rest).filter (·.isMissingOperator) =
      rest.filterMap fun entry => r.missingOperator? entry.1 :=
  r.filter_scanErrors_missingOperator rest [] (operand first)

end Registry

end OperatorFold
