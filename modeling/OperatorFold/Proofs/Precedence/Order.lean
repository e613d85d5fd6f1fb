import OperatorFold.Proofs.Precedence.Paths

/-! # The order of levels

The levels of a consistent registry stand to each other as the paths between them say: `Tighter`
extends the paths of the registered groups to the implicit level, which lies below all of them. It
is transitive, and `order_levels` reads every answer of a comparison off it. So the answers obey the
laws of a partial order, up to the cycles of the declared relations (`compare_laws`).
-/

namespace OperatorFold.Registry

variable {r : Registry} {a b c : Level}

/-- A level that operators can have: the implicit one or a registered group. -/
def Registered (r : Registry) (a : Level) : Prop := ∀ g, a = .declared g → g ∈ r.groups

theorem registered_level (r : Registry) (use : OperatorUse) : r.Registered (r.level use) :=
  fun _ hg => (of_group? (r.group?_of_level hg)).1

/-- A level binds tighter than another one: a path leads down to it, or it is the implicit one. -/
def Tighter (r : Registry) : Level → Level → Prop
  | .implicit, _ => False
  | .declared _, .implicit => True
  | .declared g, .declared h => r.Path g h

theorem Tighter.trans (hab : r.Tighter a b) (hbc : r.Tighter b c) : r.Tighter a c := by
  cases a with
  | implicit => exact hab.elim
  | declared g =>
    cases b with
    | implicit => exact hbc.elim
    | declared h =>
      cases c with
      | implicit => trivial
      | declared k => exact Relation.TransGen.trans hab hbc

/-- All answers of a comparison. -/
theorem Consistent.order_levels (hr : r.Consistent) (ha : r.Registered a) (hb : r.Registered b) :
    (r.order a b = .equal ∧ a = b) ∨
      (r.order a b = .higher ∧ a ≠ b ∧ r.Tighter a b) ∨
      (r.order a b = .lower ∧ a ≠ b ∧ ¬r.Tighter a b ∧ r.Tighter b a) ∨
      (r.order a b = .unordered ∧ a ≠ b ∧ ¬r.Tighter a b ∧ ¬r.Tighter b a) := by
  -- the implicit level lies below every declared one, so only two declared ones need a walk
  match a, b with
  | .implicit, .implicit => exact .inl ⟨rfl, rfl⟩
  | .implicit, .declared _ => exact .inr (.inr (.inl ⟨rfl, nofun, id, trivial⟩))
  | .declared _, .implicit => exact .inr (.inl ⟨rfl, nofun, trivial⟩)
  | .declared g, .declared h =>
    have hg : g ∈ r.groups := ha g rfl
    have hh : h ∈ r.groups := hb h rfl
    by_cases hname : g.name = h.name
    · have heq : g = h := List.inj_on_of_nodup_map hr.groups_nodup hg hh hname
      exact .inl ⟨(r.yields_compare_of_name_eq hname).value_eq, congrArg _ heq⟩
    · have hne : Level.declared g ≠ .declared h := fun heq => hname (congrArg Level.name heq)
      rcases hr.order_cases hg hh hname with ⟨ho, hp⟩ | ⟨ho, hp⟩ | ⟨ho, hp⟩
      · exact .inr (.inl ⟨ho, hne, hp⟩)
      · exact .inr (.inr (.inl ⟨ho, hne, hp⟩))
      · exact .inr (.inr (.inr ⟨ho, hne, hp⟩))

/-- Only one and the same level is equal. -/
theorem Consistent.order_eq_equal_iff (hr : r.Consistent) (ha : r.Registered a)
    (hb : r.Registered b) : r.order a b = .equal ↔ a = b := by
  rcases hr.order_levels ha hb with ⟨ho, rfl⟩ | ⟨ho, h, _⟩ | ⟨ho, h, _⟩ | ⟨ho, h, _⟩ <;>
    simp [*]

/-- The tighter one of two levels is higher. -/
theorem Consistent.order_eq_higher_iff (hr : r.Consistent) (ha : r.Registered a)
    (hb : r.Registered b) : r.order a b = .higher ↔ a ≠ b ∧ r.Tighter a b := by
  rcases hr.order_levels ha hb with ⟨ho, rfl⟩ | ⟨ho, h, ht⟩ | ⟨ho, h, ht, _⟩ | ⟨ho, h, ht, _⟩ <;>
    simp [*]

/-- The other one is lower, unless it is tighter as well. -/
theorem Consistent.order_eq_lower_iff (hr : r.Consistent) (ha : r.Registered a)
    (hb : r.Registered b) :
    r.order a b = .lower ↔ a ≠ b ∧ ¬r.Tighter a b ∧ r.Tighter b a := by
  rcases hr.order_levels ha hb with ⟨ho, rfl⟩ | ⟨ho, h, ht⟩ | ⟨ho, h, ht, ht'⟩ | ⟨ho, h, ht, ht'⟩
    <;> simp [*]

/-- Levels are unordered if neither of them is tighter. -/
theorem Consistent.order_eq_unordered_iff (hr : r.Consistent) (ha : r.Registered a)
    (hb : r.Registered b) :
    r.order a b = .unordered ↔ a ≠ b ∧ ¬r.Tighter a b ∧ ¬r.Tighter b a := by
  rcases hr.order_levels ha hb with ⟨ho, rfl⟩ | ⟨ho, h, ht⟩ | ⟨ho, h, ht, ht'⟩ | ⟨ho, h, ht, ht'⟩
    <;> simp [*]

/-- What is lower on one side is higher on the other. -/
theorem Consistent.order_higher_of_lower (hr : r.Consistent) (ha : r.Registered a)
    (hb : r.Registered b) (h : r.order a b = .lower) : r.order b a = .higher := by
  obtain ⟨hne, _, htighter⟩ := (hr.order_eq_lower_iff ha hb).mp h
  exact (hr.order_eq_higher_iff hb ha).mpr ⟨hne.symm, htighter⟩

/-- What is higher on one side is lower on the other, unless it is higher there too. -/
theorem Consistent.order_lower_of_higher (hr : r.Consistent) (ha : r.Registered a)
    (hb : r.Registered b) (h : r.order a b = .higher) (hne : r.order b a ≠ .higher) :
    r.order b a = .lower := by
  obtain ⟨hab, htighter⟩ := (hr.order_eq_higher_iff ha hb).mp h
  have hback : ¬r.Tighter b a := fun hback =>
    hne ((hr.order_eq_higher_iff hb ha).mpr ⟨hab.symm, hback⟩)
  exact (hr.order_eq_lower_iff hb ha).mpr ⟨hab.symm, hback, htighter⟩

/-- Higher is transitive, up to a return to the same level. -/
theorem Consistent.order_higher_trans (hr : r.Consistent) (ha : r.Registered a)
    (hb : r.Registered b) (hc : r.Registered c) (hab : r.order a b = .higher)
    (hbc : r.order b c = .higher) : a = c ∨ r.order a c = .higher := by
  obtain ⟨_, htab⟩ := (hr.order_eq_higher_iff ha hb).mp hab
  obtain ⟨_, htbc⟩ := (hr.order_eq_higher_iff hb hc).mp hbc
  by_cases heq : a = c
  · exact .inl heq
  · exact .inr ((hr.order_eq_higher_iff ha hc).mpr ⟨heq, htab.trans htbc⟩)

/-! ## The laws of comparisons -/

/-- Two groups lie on a common cycle of declared relations: a path leads down from each to the
other. -/
def OnCycle (r : Registry) : Level → Level → Prop
  | .declared g, .declared h => r.Path g h ∧ r.Path h g
  | _, _ => False

/-- Levels are on a common cycle if each of them is tighter than the other. -/
theorem onCycle_iff : r.OnCycle a b ↔ r.Tighter a b ∧ r.Tighter b a := by
  cases a <;> cases b <;> simp [OnCycle, Tighter]

/-- The laws that the answers `order` to comparisons obey on the levels of a registry. -/
structure OrderLaws (r : Registry) (order : Level → Level → Order) : Prop where
  equal_iff : ∀ {a b}, r.Registered a → r.Registered b → (order a b = .equal ↔ a = b)
  /-- The implicit level is below all groups. -/
  implicit_lower : ∀ g ∈ r.groups, order .implicit (.declared g) = .lower
  higher_of_lower : ∀ {a b}, r.Registered a → r.Registered b →
    order a b = .lower → order b a = .higher
  unordered_comm : ∀ {a b}, r.Registered a → r.Registered b →
    (order a b = .unordered ↔ order b a = .unordered)
  /-- Only a cycle makes each of two groups higher than the other. -/
  of_higher : ∀ {a b}, r.Registered a → r.Registered b → order a b = .higher →
    (r.OnCycle a b → order b a = .higher) ∧ (¬r.OnCycle a b → order b a = .lower)
  higher_trans : ∀ {a b c}, r.Registered a → r.Registered b → r.Registered c →
    order a b = .higher → order b c = .higher → a = c ∨ order a c = .higher

/-- **The laws of comparisons.** In a registry that any loads have built, every comparison has an
answer, and on the registered groups together with the implicit level the answers obey the laws of
an order. -/
theorem compare_laws (hr : r.Reachable) :
    (∀ a b, ∃ es, (r.compare a b).collect = .ok ⟨r.order a b, es⟩) ∧ r.OrderLaws r.order := by
  have hc := hr.consistent
  refine ⟨fun a b => ⟨_, (r.yields_compare a b).collect⟩, ?_⟩
  exact {
    equal_iff := hc.order_eq_equal_iff
    implicit_lower := fun g _ => r.order_implicit_declared g
    higher_of_lower := hc.order_higher_of_lower
    unordered_comm := fun ha hb => by
      rw [hc.order_eq_unordered_iff ha hb, hc.order_eq_unordered_iff hb ha, ne_comm,
        and_comm (a := ¬r.Tighter _ _)]
    of_higher := fun ha hb hab => by
      obtain ⟨hne, htighter⟩ := (hc.order_eq_higher_iff ha hb).mp hab
      refine ⟨fun hcycle => ?_, fun hnone => ?_⟩
      · exact (hc.order_eq_higher_iff hb ha).mpr ⟨hne.symm, (onCycle_iff.mp hcycle).2⟩
      · refine hc.order_lower_of_higher ha hb hab fun hba => hnone ?_
        exact onCycle_iff.mpr ⟨htighter, ((hc.order_eq_higher_iff hb ha).mp hba).2⟩
    higher_trans := hc.order_higher_trans }

/-- Two of the tangled groups lie on a cycle, and a third one is above them. -/
theorem compare_laws_tangled :
    tangled.Reachable ∧ ∃ a b c d, tangled.groups = [a, b, c, d] ∧
      (tangled.Registered (.declared a) ∧ tangled.Registered (.declared b) ∧
        tangled.Registered (.declared c)) ∧
      tangled.OnCycle (.declared a) (.declared b) ∧ ¬tangled.OnCycle (.declared c) (.declared a) ∧
      tangled.order (.declared c) (.declared b) = .higher ∧
      tangled.order .implicit (.declared d) = .lower := by
  have hr : tangled.Reachable := Reachable.empty.record _
  obtain ⟨-, hlaws⟩ := compare_laws hr
  let a : PrecedenceGroup := .declare "a" .left ["b", "b", "a"] [] false .unknown
  let b : PrecedenceGroup := .declare "b" .none ["a"] ["c"] false .unknown
  let c : PrecedenceGroup := .declare "c" .right ["x"] [] false .unknown
  let d : PrecedenceGroup := .declare "d" .none [] ["x"] false .unknown
  have hregistered {g : PrecedenceGroup} (hg : g ∈ tangled.groups) :
      tangled.Registered (.declared g) := by
    rintro _ ⟨⟩
    exact hg
  have ha : tangled.Registered (.declared a) := hregistered (by decide)
  have hb : tangled.Registered (.declared b) := hregistered (by decide)
  have hc : tangled.Registered (.declared c) := hregistered (by decide)
  have hab : tangled.order (.declared a) (.declared b) = .higher := by decide +kernel
  have hca : tangled.order (.declared c) (.declared a) = .higher := by decide +kernel
  refine ⟨hr, a, b, c, d, rfl, ⟨ha, hb, hc⟩, ?_, ?_, ?_, hlaws.implicit_lower d (by decide)⟩
  · by_contra hnone
    have hback := (hlaws.of_higher ha hb hab).2 hnone
    revert hback
    decide +kernel
  · intro hcycle
    have hback := (hlaws.of_higher hc ha hca).1 hcycle
    revert hback
    decide +kernel
  · -- `c` is above `a`, and `a` above `b`
    exact (hlaws.higher_trans hc ha hb hca hab).resolve_left (by decide +kernel)

end OperatorFold.Registry
