import OperatorFold.Proofs.Precedence.Order

/-! # Registries that grow

Loads only ever add to a registry. What has been declared stays declared, in its place in the lists
(`Grows.extends`): lookups that found something find the same, and groups keep the edges they had.

So what is above stays above (`Extends.order_higher`). This holds of any groups that are compared,
registered or not. A walk starts at the group it is given, whatever is registered under its name,
and never looks this name up; so it walks as if the group were registered (`walk_withGroup`). New
groups may turn dead ends into paths, though, and so put two groups above each other. Where they do
not, all other answers but that there is no order stay as they are, too.
-/

namespace OperatorFold.Registry

open Reporting

variable {r r' : Registry}

/-! ## Growth -/

/-- The registries that come out of further loads; these may end in any way. -/
inductive Grows (r : Registry) : Registry → Prop
  | refl : Grows r r
  | load {r' : Registry} {items : List (Item Node)} {limit : Limit} {j j' : Journal}
      {loaded : Loaded} (hr : Grows r r') (h : r'.load items limit j = (.ok loaded, j')) :
      Grows r loaded.registry

/-- A reachable registry that grows stays reachable. -/
theorem Grows.reachable (h : r.Grows r') (hr : r.Reachable) : r'.Reachable := by
  induction h with
  | refl => exact hr
  | load _ hload ih => exact ih.load hload

/-- Any items can be recorded in addition. -/
theorem Grows.record (h : r.Grows r') (items : List (Item Node)) :
    r.Grows (items.foldl recordItem r') := by
  obtain ⟨j, hload, -⟩ := load_apply (j := {}) items (Limit.allows_none _)
  exact h.load hload

/-- The lists of a registry go on from those of another one. -/
structure Extends (r r' : Registry) : Prop where
  groups : r.groups <+: r'.groups
  operators : r.operators <+: r'.operators

/-- One more item makes a registry larger. -/
theorem extends_recordItem (r : Registry) (item : Item Node) : r.Extends (r.recordItem item) := by
  match item with
  | .declaration (.group g) =>
    rw [recordItem, recordGroup]
    cases r.group? g.name with
    | none => exact ⟨List.prefix_append _ _, List.prefix_refl _⟩
    | some existing => exact ⟨List.prefix_refl _, List.prefix_refl _⟩
  | .declaration (.operator op) =>
    rw [recordItem, recordOperator]
    cases r.operator? op.name op.fixity with
    | none => exact ⟨List.prefix_refl _, List.prefix_append _ _⟩
    | some existing => exact ⟨List.prefix_refl _, List.prefix_refl _⟩
  | .node n => exact ⟨List.prefix_refl _, List.prefix_refl _⟩

theorem Extends.trans {r'' : Registry} (h : r.Extends r') (h' : r'.Extends r'') :
    r.Extends r'' :=
  ⟨h.groups.trans h'.groups, h.operators.trans h'.operators⟩

theorem extends_record (r : Registry) (items : List (Item Node)) :
    r.Extends (items.foldl recordItem r) := by
  induction items generalizing r with
  | nil => exact ⟨List.prefix_refl _, List.prefix_refl _⟩
  | cons item rest ih => exact (r.extends_recordItem item).trans (ih _)

/-- Loads add to the lists of a registry. -/
theorem Grows.extends (h : r.Grows r') : r.Extends r' := by
  induction h with
  | refl => exact ⟨List.prefix_refl _, List.prefix_refl _⟩
  | load _ hload ih =>
    obtain ⟨n, hn⟩ := loadFrom_registry _ hload
    rw [hn]
    exact ih.trans (extends_record _ _)

/-! ## What stays -/

namespace Extends

variable (h : r.Extends r')
include h

/-- A group that is found in a registry is found in every larger one. -/
theorem group?_eq_some {name : String} {g : PrecedenceGroup} (hg : r.group? name = some g) :
    r'.group? name = some g := by
  obtain ⟨more, hmore⟩ := h.groups
  have hfound : r.groups.find? (·.name = name) = some g := hg
  rw [group?, ← hmore, List.find?_append, hfound]
  rfl

/-- An operator that is found in a registry is found in every larger one. -/
theorem operator?_eq_some {name : String} {fixity : Fixity} {op : Operator}
    (hop : r.operator? name fixity = some op) : r'.operator? name fixity = some op := by
  obtain ⟨more, hmore⟩ := h.operators
  have hfound : r.operators.find? (·.key = (name, fixity)) = some op := hop
  rw [operator?, ← hmore, List.find?_append, hfound]
  rfl

theorem registered {a : Level} (ha : r.Registered a) : r'.Registered a :=
  fun g hg => h.groups.subset (ha g hg)

/-- Groups keep their edges. -/
theorem edges_subset (hr : r.Consistent) (hr' : r'.Consistent) (d : Direction)
    (g : PrecedenceGroup) : r.edges d g ⊆ r'.edges d g := by
  intro e he
  rw [mem_edges] at he ⊢
  refine he.imp_right fun ⟨other, hother, heq⟩ => ⟨other, ?_, heq⟩
  obtain ⟨hmem, hrel⟩ := hr.mem_relatedTo.mp hother
  exact hr'.mem_relatedTo.mpr ⟨h.groups.subset hmem, hrel⟩

end Extends

/-! ## The start of a walk -/

/-- The registry in which `g` is found under its name, whatever is declared under it; the indexes
stay as they are. -/
def withGroup (r : Registry) (g : PrecedenceGroup) : Registry := { r with groups := g :: r.groups }

/-- The group that is added is found by its name. -/
theorem group?_withGroup_self (r : Registry) (g : PrecedenceGroup) :
    (r.withGroup g).group? g.name = some g :=
  List.find?_cons_of_pos (decide_eq_true rfl)

theorem group?_withGroup (r : Registry) {g : PrecedenceGroup} {name : String}
    (hne : name ≠ g.name) : (r.withGroup g).group? name = r.group? name :=
  List.find?_cons_of_neg fun heq => hne (of_decide_eq_true heq).symm

/-- To follow edges forgets no name that has been seen. -/
theorem seen_subset_follow (r : Registry) (target : String) (es : List Edge) (w : Walk) :
    w.seen ⊆ (r.follow target es w).1.seen := by
  induction es generalizing w with
  | nil => exact List.Subset.refl _
  | cons e rest ih =>
    rw [follow_cons]
    split
    · exact ih w
    · split
      · exact List.subset_cons_self _ _
      · intro name hname
        refine ih (r.visit e w) ?_
        rw [seen_visit]
        exact List.mem_cons_of_mem _ hname

/-- To follow edges comes to the same with a group added whose name has been seen. -/
theorem follow_withGroup (r : Registry) (g : PrecedenceGroup) (target : String) (es : List Edge)
    {w : Walk} (hseen : g.name ∈ w.seen) :
    (r.withGroup g).follow target es w = r.follow target es w := by
  induction es generalizing w with
  | nil => rfl
  | cons e rest ih =>
    rw [follow_cons, follow_cons]
    -- the added group is looked up under no edge, because its name has been seen
    split
    · exact ih hseen
    · next hnew =>
      have hne : e.target ≠ g.name := fun heq => hnew (heq ▸ hseen)
      have hvisit : (r.withGroup g).visit e w = r.visit e w := by
        rw [visit, visit, r.group?_withGroup hne]
      rw [hvisit]
      split
      · rfl
      · refine ih ?_
        rw [seen_visit]
        exact List.mem_cons_of_mem _ hseen

/-- So does the walk from there on. -/
theorem walkFrom_withGroup (r : Registry) (g : PrecedenceGroup) (d : Direction) (target : String)
    {w : Walk} (hseen : g.name ∈ w.seen) :
    (r.withGroup g).walkFrom d target w = r.walkFrom d target w := by
  -- on the run of the walk without the group; its name stays seen all along
  induction w using Registry.walkFrom.induct r d target with
  | case1 w hw => rw [walkFrom_nil hw, walkFrom_nil hw]
  | case2 w h rest hw _ _ hfound =>
    have hfollow := r.follow_withGroup g target (r.edges d h) (w := leave h rest w) hseen
    have hedges : (r.withGroup g).edges d h = r.edges d h := rfl
    rw [walkFrom_cons hw, walkFrom_cons hw, hedges, hfollow]
    have hfound : (r.follow target (r.edges d h) (leave h rest w)).2 = true := hfound
    rw [if_pos hfound, if_pos hfound]
  | case3 w h rest hw _ _ hpast ih =>
    have hfollow := r.follow_withGroup g target (r.edges d h) (w := leave h rest w) hseen
    have hedges : (r.withGroup g).edges d h = r.edges d h := rfl
    rw [walkFrom_cons hw, walkFrom_cons hw, hedges, hfollow]
    have hpast : ¬(r.follow target (r.edges d h) (leave h rest w)).2 = true := hpast
    rw [if_neg hpast, if_neg hpast]
    exact ih (r.seen_subset_follow target _ _ hseen)

/-- A walk goes as if its start were registered. -/
theorem walk_withGroup (r : Registry) (d : Direction) (start : PrecedenceGroup) (target : String) :
    (r.withGroup start).walk d start target = r.walk d start target :=
  r.walkFrom_withGroup start d target (List.mem_singleton_self _)

/-- A walk finds a name exactly if it meets an edge to it, be the name registered or not. -/
theorem walk_found_iff_met (r : Registry) (d : Direction) {start : PrecedenceGroup}
    {target : String} (hne : start.name ≠ target) :
    (r.walk d start target).2 = true ↔ (r.withGroup start).Met d start target := by
  have hstart := r.group?_withGroup_self start
  have hwalk := (sound_start d hstart hne).walkFrom
  rw [← walk_withGroup]
  refine ⟨hwalk.1, ?_⟩
  rintro ⟨g, hg, e, he, rfl⟩
  by_contra hpast
  obtain ⟨hw, hsound⟩ := hwalk.2 (Bool.eq_false_iff.mpr hpast)
  exact hsound.target_unseen (hsound.seen_of_edge hw hstart hg he)

/-! ## Orders -/

namespace Extends

variable (h : r.Extends r') (hr : r.Consistent) (hr' : r'.Consistent)
include h hr hr'

/-- What a walk meets in a registry it meets in a larger one. -/
theorem met {d : Direction} {start : PrecedenceGroup} {target : String}
    (hmet : (r.withGroup start).Met d start target) : (r'.withGroup start).Met d start target := by
  have hedges (g : PrecedenceGroup) : r.edges d g ⊆ r'.edges d g := h.edges_subset hr hr' d g
  have hstep : (r.withGroup start).Step d ≤ (r'.withGroup start).Step d := by
    rintro g k ⟨e, he, hfound⟩
    refine ⟨e, hedges g he, ?_⟩
    by_cases hname : e.target = start.name
    · rw [hname, group?_withGroup_self] at hfound ⊢
      exact hfound
    · rw [group?_withGroup _ hname] at hfound ⊢
      exact h.group?_eq_some hfound
  obtain ⟨g, hg, e, he, htarget⟩ := hmet
  exact ⟨g, Relation.ReflTransGen.mono hstep _ _ hg, e, hedges g he, htarget⟩

/-- Higher stays higher. -/
theorem order_higher {a b : Level} (hab : r.order a b = .higher) : r'.order a b = .higher := by
  match a, b with
  | .implicit, .implicit => cases hab
  | .implicit, .declared _ => cases hab
  | .declared _, .implicit => rfl
  | .declared a, .declared b =>
    have hne : a.name ≠ b.name := by
      intro heq
      rw [order, (r.yields_compare_of_name_eq heq).value_eq] at hab
      cases hab
    -- only a walk that finds the other group on its way down answers that a group is higher
    have hfound : (r.walk .down a b.name).2 = true := by
      obtain ⟨hd, _⟩ | ⟨_, _, hy⟩ | ⟨_, _, hy⟩ := r.compare_cases hne
      · exact hd
      · rw [order, hy.value_eq] at hab
        cases hab
      · rw [order, hy.value_eq] at hab
        cases hab
    have hfound' : (r'.walk .down a b.name).2 = true :=
      (r'.walk_found_iff_met .down hne).mpr
        (h.met hr hr' ((r.walk_found_iff_met .down hne).mp hfound))
    obtain ⟨_, hy⟩ | ⟨hd, _⟩ | ⟨hd, _⟩ := r'.compare_cases hne
    · exact hy.value_eq
    · rw [hfound'] at hd
      cases hd
    · rw [hfound'] at hd
      cases hd

omit h hr hr' in
/-- Equal levels are equal in every registry. -/
theorem order_equal {a b : Level} (hab : r.order a b = .equal) : r'.order a b = .equal :=
  r'.order_eq_equal_iff.mpr (r.order_eq_equal_iff.mp hab)

/-- Where no two levels come to stand above each other, an order stays as it is. -/
theorem order_eq {a b : Level} (ha : r.Registered a) (hb : r.Registered b)
    (hordered : r.order a b ≠ .unordered)
    (hmutual : ¬(r'.order a b = .higher ∧ r'.order b a = .higher)) :
    r'.order a b = r.order a b := by
  cases hab : r.order a b with
  | higher => exact h.order_higher hr hr' hab
  | lower =>
    have hba : r'.order b a = .higher :=
      h.order_higher hr hr' (hr.order_higher_of_lower ha hb hab)
    exact hr'.order_lower_of_higher (h.registered hb) (h.registered ha) hba
      fun hab' => hmutual ⟨hab', hba⟩
  | equal => exact order_equal hab
  | unordered => exact absurd hab hordered

end Extends

/-! ## Operators -/

/-- An operator is declared, and so is its group if it names one. -/
def Resolves (r : Registry) (use : OperatorUse) : Prop :=
  ∃ op, r.operator? use.name .infixOp = some op ∧
    ∀ name, op.groupName = some name → ∃ g, r.group? name = some g

/-- What is resolved stays resolved, at the same level. -/
theorem Extends.levelOf_eq (h : r.Extends r') {use : OperatorUse} (huse : r.Resolves use) :
    r'.levelOf use = r.levelOf use := by
  obtain ⟨op, hop, hgroup⟩ := huse
  rw [levelOf, levelOf, hop, h.operator?_eq_some hop]
  cases hname : op.groupName with
  | none => simp only [hname]
  | some name =>
    obtain ⟨g, hg⟩ := hgroup name hname
    simp only [hname, hg, h.group?_eq_some hg]

/-- An operator whose level is found has the same level in every larger registry. -/
theorem Extends.level_eq (h : r.Extends r') {use : OperatorUse} (huse : r.Resolves use) :
    r'.level use = r.level use := by
  rw [level, level, h.levelOf_eq huse]

end OperatorFold.Registry
