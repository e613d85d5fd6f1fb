import OperatorFold.Fold.Sequence
import OperatorFold.Proofs.Reporting

/-! # What comparisons come to

Resolving an operator, comparing two levels and asking whether a waiting operator combines never
halt: each yields a value and some errors. `level`, `order` and `combines` are these values, for a
run in which every error is let pass. The errors of the first two are about missing declarations
alone; an `incomparableOperators` error arises only in the third, from two operators in conflict.
-/

namespace OperatorFold

open Reporting

/-- An error that two operators have no order. -/
def PrecedenceError.isIncomparable : PrecedenceError → Bool
  | incomparableOperators .. => true
  | _ => false

namespace Registry

variable (r : Registry)

/-! ## Levels of operators -/

/-- The level at which an operator folds. -/
def level (use : OperatorUse) : Level := (r.levelOf use).value

/-- All ways in which an operator is resolved. -/
theorem levelOf_cases (use : OperatorUse) :
    (r.operator? use.name .infixOp = none ∧
      Yields (r.levelOf use) .implicit [.missingOperator use.name use.span]) ∨
    (∃ op, r.operator? use.name .infixOp = some op ∧ op.groupName = none ∧
      Yields (r.levelOf use) .implicit []) ∨
    (∃ op name, r.operator? use.name .infixOp = some op ∧ op.groupName = some name ∧
      r.group? name = none ∧ Yields (r.levelOf use) .implicit [.missingGroup name use.span]) ∨
    (∃ op name g, r.operator? use.name .infixOp = some op ∧ op.groupName = some name ∧
      r.group? name = some g ∧ Yields (r.levelOf use) (.declared g) []) := by
  have hreported (e : PrecedenceError) :
      Yields (do report e; pure Level.implicit) .implicit [e] :=
    (yields_report e).bind (yields_pure Level.implicit)
  rw [levelOf]
  -- the operator may be unknown, be in no group, name an unknown group, or have one
  cases hop : r.operator? use.name .infixOp with
  | none => exact .inl ⟨rfl, hreported _⟩
  | some op =>
    cases hname : op.groupName with
    | none => exact .inr (.inl ⟨op, rfl, hname, by simp only [hname]; exact yields_pure _⟩)
    | some name =>
      cases hg : r.group? name with
      | none =>
        refine .inr (.inr (.inl ⟨op, name, rfl, hname, hg, ?_⟩))
        simp only [hname, hg]
        exact hreported _
      | some g =>
        refine .inr (.inr (.inr ⟨op, name, g, rfl, hname, hg, ?_⟩))
        simp only [hname, hg]
        exact yields_pure _

/-- The level of an operator is found whatever the limit, and the errors on the way to it are its
own. -/
theorem yields_levelOf (use : OperatorUse) :
    Yields (r.levelOf use) (r.level use) (r.levelOf use).errors := by
  obtain ⟨_, h⟩ | ⟨_, _, _, h⟩ | ⟨_, _, _, _, _, h⟩ | ⟨_, _, _, _, _, _, h⟩ :=
    r.levelOf_cases use <;> exact h.outcome

/-- To resolve an operator is no reason to find two operators incomparable. -/
theorem filter_levelOf_errors (use : OperatorUse) :
    (r.levelOf use).errors.filter (·.isIncomparable) = [] := by
  obtain ⟨_, h⟩ | ⟨_, _, _, h⟩ | ⟨_, _, _, _, _, h⟩ | ⟨_, _, _, _, _, _, h⟩ :=
    r.levelOf_cases use <;> rw [h.errors_eq] <;> rfl

/-- A declared level is a group of the registry, to which its own name leads. -/
theorem group?_of_level {use : OperatorUse} {g : PrecedenceGroup}
    (h : r.level use = .declared g) : r.group? g.name = some g := by
  obtain ⟨_, hy⟩ | ⟨_, _, _, hy⟩ | ⟨_, _, _, _, _, hy⟩ | ⟨_, name, g', _, _, hg, hy⟩ :=
    r.levelOf_cases use
  all_goals
    rw [level, hy.value_eq] at h
    cases h
  have hname : g.name = name := by simpa using List.find?_some hg
  rw [hname]
  exact hg

/-! ## The order of levels -/

/-- How one level stands to another. -/
def order (a b : Level) : Order := (r.compare a b).value

/-- The errors about the dead ends of a walk. -/
def deadEnds (w : Walk) : List PrecedenceError :=
  w.missing.map fun e => .missingGroup e.target e.span

/-- A walk finds its target or does not, and reports its dead ends. -/
theorem yields_reaches (d : Direction) (start : PrecedenceGroup) (target : String) :
    Yields (r.reaches d start target) (r.walk d start target).2
      (deadEnds (r.walk d start target).1) := by
  rw [← List.append_nil (deadEnds _)]
  exact (yields_reportAll _).bind (yields_pure _)

/-- The comparison of two groups of different names: one walk down and, unless that meets the other
group, one walk up. -/
theorem compare_cases {a b : PrecedenceGroup} (hne : a.name ≠ b.name) :
    ((r.walk .down a b.name).2 = true ∧
      Yields (r.compare (.declared a) (.declared b)) .higher
        (deadEnds (r.walk .down a b.name).1)) ∨
    ((r.walk .down a b.name).2 = false ∧ (r.walk .up a b.name).2 = true ∧
      Yields (r.compare (.declared a) (.declared b)) .lower
        (deadEnds (r.walk .down a b.name).1 ++ deadEnds (r.walk .up a b.name).1)) ∨
    ((r.walk .down a b.name).2 = false ∧ (r.walk .up a b.name).2 = false ∧
      Yields (r.compare (.declared a) (.declared b)) .unordered
        (deadEnds (r.walk .down a b.name).1 ++ deadEnds (r.walk .up a b.name).1)) := by
  have hdown := r.yields_reaches .down a b.name
  have hup := r.yields_reaches .up a b.name
  simp only [compare, if_neg hne]
  -- the way up is only walked if the way down leads nowhere
  cases hd : (r.walk .down a b.name).2 with
  | true =>
    rw [hd] at hdown
    refine .inl ⟨rfl, ?_⟩
    rw [← List.append_nil (deadEnds _)]
    exact hdown.bind (yields_pure _)
  | false =>
    rw [hd] at hdown
    cases hu : (r.walk .up a b.name).2 with
    | true =>
      rw [hu] at hup
      refine .inr (.inl ⟨rfl, rfl, ?_⟩)
      rw [← List.append_nil (deadEnds (r.walk .up a b.name).1)]
      exact hdown.bind (hup.bind (yields_pure _))
    | false =>
      rw [hu] at hup
      refine .inr (.inr ⟨rfl, rfl, ?_⟩)
      rw [← List.append_nil (deadEnds (r.walk .up a b.name).1)]
      exact hdown.bind (hup.bind (yields_pure _))

/-- Groups of one name are equal without a walk. -/
theorem yields_compare_of_name_eq {a b : PrecedenceGroup} (h : a.name = b.name) :
    Yields (r.compare (.declared a) (.declared b)) .equal [] := by
  rw [compare, if_pos h]
  exact yields_pure _

/-- Levels are compared whatever the limit, and the errors on the way are those of the
comparison. -/
theorem yields_compare (a b : Level) :
    Yields (r.compare a b) (r.order a b) (r.compare a b).errors := by
  match a, b with
  | .implicit, .implicit | .implicit, .declared _ | .declared _, .implicit =>
    exact (yields_pure _).outcome
  | .declared a, .declared b =>
    by_cases hne : a.name = b.name
    · exact (r.yields_compare_of_name_eq hne).outcome
    · obtain ⟨_, h⟩ | ⟨_, _, h⟩ | ⟨_, _, h⟩ := r.compare_cases hne <;> exact h.outcome

/-- No dead end is an error of incomparable operators. -/
theorem filter_deadEnds (w : Walk) : (deadEnds w).filter (·.isIncomparable) = [] := by
  rw [List.filter_eq_nil_iff]
  intro e he
  obtain ⟨edge, _, rfl⟩ := List.mem_map.mp he
  exact Bool.false_ne_true

/-- The errors of a comparison are about missing groups alone. -/
theorem filter_compare_errors (a b : Level) :
    (r.compare a b).errors.filter (·.isIncomparable) = [] := by
  match a, b with
  | .implicit, .implicit | .implicit, .declared _ | .declared _, .implicit =>
    rw [(yields_pure _).errors_eq (x := r.compare _ _)]
    rfl
  | .declared a, .declared b =>
    by_cases hne : a.name = b.name
    · rw [(r.yields_compare_of_name_eq hne).errors_eq]
      rfl
    · obtain ⟨_, h⟩ | ⟨_, _, h⟩ | ⟨_, _, h⟩ := r.compare_cases hne <;>
        simp only [h.errors_eq, List.filter_append, filter_deadEnds, List.append_nil]

@[simp] theorem order_implicit_implicit : r.order .implicit .implicit = .equal := rfl

@[simp] theorem order_implicit_declared (g : PrecedenceGroup) :
    r.order .implicit (.declared g) = .lower := rfl

@[simp] theorem order_declared_implicit (g : PrecedenceGroup) :
    r.order (.declared g) .implicit = .higher := rfl

theorem order_self (a : Level) : r.order a a = .equal := by
  cases a with
  | implicit => rfl
  | declared g => exact (r.yields_compare_of_name_eq rfl).value_eq

/-- Two levels are equal in order if both are implicit or both are declared under one name. -/
theorem order_eq_equal_iff {a b : Level} :
    r.order a b = .equal ↔
      a = .implicit ∧ b = .implicit ∨
        ∃ g h, a = .declared g ∧ b = .declared h ∧ g.name = h.name := by
  match a, b with
  | .implicit, .implicit => simp
  | .implicit, .declared _ => simp
  | .declared _, .implicit => simp
  | .declared a, .declared b =>
    by_cases hne : a.name = b.name
    · have hvalue : r.order (.declared a) (.declared b) = .equal :=
        (r.yields_compare_of_name_eq hne).value_eq
      simp [hvalue, hne]
    · obtain ⟨_, h⟩ | ⟨_, _, h⟩ | ⟨_, _, h⟩ := r.compare_cases hne <;>
        simp [order, h.value_eq, hne]

/-! ## Combining -/

/-- An operator that waits at its level. -/
def pending (use : OperatorUse) : Pending := ⟨use, r.level use⟩

/-- What has been read waits at the level of its operator. -/
theorem eq_pending {use : OperatorUse} {level : Level} {es : List PrecedenceError}
    (h : Yields (r.levelOf use) level es) : ⟨use, level⟩ = r.pending use := by
  rw [pending, Registry.level, h.value_eq]

/-- Whether the waiting operator `p` combines before the operator `o` is read. -/
def combines (p o : OperatorUse) : Bool := (r.shouldCombine (r.pending p) (r.pending o)).value

/-- Two operators have no order: the levels are unrelated, or one level without associativity. -/
def conflicting (p o : OperatorUse) : Bool :=
  match r.order (r.level o) (r.level p) with
  | .higher | .lower => false
  | .equal => (r.level o).associativity = .none
  | .unordered => true

/-- The error that a waiting operator and an incoming one have no order. -/
def incomparable (pair : OperatorUse × OperatorUse) : PrecedenceError :=
  .incomparableOperators pair.1 (r.level pair.1).name pair.2 (r.level pair.2).name

/-- How a waiting operator and an incoming one are settled, by the order of the incoming one. -/
theorem yields_shouldCombine_order (p o : OperatorUse) :
    Yields (r.shouldCombine (r.pending p) (r.pending o))
      (match r.order (r.level o) (r.level p) with
        | .higher => false
        | .lower => true
        | .equal => (r.level o).associativity ≠ .right
        | .unordered => true)
      ((r.compare (r.level o) (r.level p)).errors ++
        if r.conflicting p o then [r.incomparable (p, o)] else []) := by
  have hreported : Yields (do report (r.incomparable (p, o)); pure true) true
      [r.incomparable (p, o)] := (yields_report _).bind (yields_pure true)
  refine (r.yields_compare (r.level o) (r.level p)).bind ?_
  unfold conflicting
  -- only equal levels without an associativity, and unordered ones, report that they are
  -- incomparable
  cases horder : r.order (r.level o) (r.level p) with
  | higher => exact yields_pure false
  | lower => exact yields_pure true
  | equal =>
    simp only [pending]
    cases hassoc : (r.level o).associativity with
    | left => exact yields_pure true
    | right => exact yields_pure false
    | none => exact hreported
  | unordered => exact hreported

/-- Whether operators combine is decided by the order of their levels and, on the same level, by its
associativity. -/
theorem combines_eq (p o : OperatorUse) :
    r.combines p o = match r.order (r.level o) (r.level p) with
      | .higher => false
      | .lower => true
      | .equal => decide ((r.level o).associativity ≠ .right)
      | .unordered => true :=
  (r.yields_shouldCombine_order p o).value_eq

/-- Whether operators combine is decided whatever the limit, and the errors on the way are those of
the decision. -/
theorem yields_shouldCombine (p o : OperatorUse) :
    Yields (r.shouldCombine (r.pending p) (r.pending o)) (r.combines p o)
      (r.shouldCombine (r.pending p) (r.pending o)).errors :=
  (r.yields_shouldCombine_order p o).outcome

/-- Two operators in conflict combine from the left. -/
theorem combines_of_conflicting {p o : OperatorUse} (h : r.conflicting p o = true) :
    r.combines p o = true := by
  rw [combines_eq]
  unfold conflicting at h
  cases horder : r.order (r.level o) (r.level p) with
  | higher => rw [horder] at h; cases h
  | lower => rfl
  | equal =>
    rw [horder] at h
    have hnone : (r.level o).associativity = .none := of_decide_eq_true h
    rw [hnone]
    rfl
  | unordered => rfl

/-- Two operators are reported as incomparable if they are in conflict, and then once. -/
theorem filter_shouldCombine_errors (p o : OperatorUse) :
    (r.shouldCombine (r.pending p) (r.pending o)).errors.filter (·.isIncomparable) =
      if r.conflicting p o then [r.incomparable (p, o)] else [] := by
  rw [(r.yields_shouldCombine_order p o).errors_eq, List.filter_append, filter_compare_errors,
    List.nil_append]
  split
  · rfl
  · rfl

/-- Only declared groups come into conflict. So the two levels of a conflict have one name exactly
where they are equal in order, although a group may bear the name of the implicit level. -/
theorem level_name_eq_iff {p o : OperatorUse} (h : r.conflicting p o = true) :
    (r.level p).name = (r.level o).name ↔ r.order (r.level o) (r.level p) = .equal := by
  unfold conflicting at h
  cases hp : r.level p with
  | implicit =>
    cases ho : r.level o with
    | implicit => simp [hp, ho, Level.associativity] at h
    | declared g => simp [hp, ho] at h
  | declared g =>
    cases ho : r.level o with
    | implicit => simp [hp, ho] at h
    | declared g' =>
      rw [order_eq_equal_iff]
      simp [Level.name, eq_comm]

end Registry

end OperatorFold
