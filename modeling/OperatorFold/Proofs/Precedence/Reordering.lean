import OperatorFold.Proofs.Precedence.Order

/-! # The order of declarations

Declarations of different keys do not meet each other when they are loaded: all of them are recorded
and none is a duplicate (`record_of_nodup_keys`). In whatever order they come, the registry holds
the same declarations, though its lists and indexes, and so the edges of its groups, may stand in
another order.

Two consistent registries with the same declarations (`SameDeclarations`) answer the same. A lookup
finds the same declaration, for there is only one under each key. A comparison decides paths, and
these know nothing of the order of edges. Only the dead ends that a walk meets before it ends may
differ.
-/

namespace OperatorFold

open Reporting

namespace Declaration

/-- The name that a declaration takes: that of a group, or that of an operator together with its
fixity. -/
def key : Declaration → String ⊕ (String × Fixity)
  | group g => .inl g.name
  | operator op => .inr op.key

/-- The group of a declaration, if it declares one. -/
def group? : Declaration → Option PrecedenceGroup
  | group g => some g
  | operator _ => none

/-- The operator of a declaration, if it declares one. -/
def operator? : Declaration → Option Operator
  | group _ => none
  | operator op => some op

end Declaration

namespace Registry

variable {r r' : Registry} {d d' : Declaration} {decls decls' : List Declaration}

/-! ## Lookups -/

/-- Exactly the groups of a consistent registry are found under their names. -/
theorem Consistent.group?_eq_some_iff (hr : r.Consistent) {name : String} {g : PrecedenceGroup} :
    r.group? name = some g ↔ g ∈ r.groups ∧ g.name = name := by
  constructor
  · exact of_group?
  · rintro ⟨hg, rfl⟩
    exact hr.group?_eq_some hg

theorem Consistent.operator?_eq_some_iff (hr : r.Consistent) {name : String} {fixity : Fixity}
    {op : Operator} : r.operator? name fixity = some op ↔
      op ∈ r.operators ∧ op.key = (name, fixity) := by
  constructor
  · intro h
    exact ⟨List.mem_of_find?_eq_some h, by simpa using List.find?_some h⟩
  · rintro ⟨hop, hkey⟩
    cases hfind : r.operator? name fixity with
    | none => exact absurd (decide_eq_true hkey) (List.find?_eq_none.mp hfind op hop)
    | some op' =>
      have hkey' : op'.key = (name, fixity) := by simpa using List.find?_some hfind
      rw [List.inj_on_of_nodup_map hr.operators_nodup (List.mem_of_find?_eq_some hfind) hop
        (hkey'.trans hkey.symm)]

/-! ## Distinct keys -/

/-- A declaration that is no duplicate is recorded behind the others of its kind. -/
theorem recordItem_of_not_duplicate (h : r.duplicate (.declaration d) = none) :
    (r.recordItem (.declaration d)).groups = r.groups ++ d.group?.toList ∧
      (r.recordItem (.declaration d)).operators = r.operators ++ d.operator?.toList := by
  cases d with
  | group g =>
    have hfree : r.group? g.name = none := Option.map_eq_none_iff.mp h
    rw [recordItem, recordGroup, hfree]
    exact ⟨rfl, (List.append_nil _).symm⟩
  | operator op =>
    have hfree : r.operator? op.name op.fixity = none := Option.map_eq_none_iff.mp h
    rw [recordItem, recordOperator, hfree]
    exact ⟨(List.append_nil _).symm, rfl⟩

/-- It makes no duplicate of a declaration of another key. -/
theorem duplicate_recordItem (h : r.duplicate (.declaration d) = none)
    (h' : r.duplicate (.declaration d') = none) (hne : d.key ≠ d'.key) :
    (r.recordItem (.declaration d)).duplicate (.declaration d') = none := by
  obtain ⟨hgroups, hoperators⟩ := recordItem_of_not_duplicate h
  cases d' with
  | group g' =>
    have hold : r.group? g'.name = none := Option.map_eq_none_iff.mp h'
    refine Option.map_eq_none_iff.mpr (List.find?_eq_none.mpr fun g hg => ?_)
    rw [hgroups, List.mem_append] at hg
    -- `g` was there before, or is the declaration just recorded, whose key is another
    rcases hg with hg | hg
    · exact List.find?_eq_none.mp hold g hg
    · cases d with
      | group g₁ =>
        cases List.mem_singleton.mp hg
        simpa [Declaration.key] using hne
      | operator op => cases hg
  | operator op' =>
    have hold : r.operator? op'.name op'.fixity = none := Option.map_eq_none_iff.mp h'
    refine Option.map_eq_none_iff.mpr (List.find?_eq_none.mpr fun op hop => ?_)
    rw [hoperators, List.mem_append] at hop
    rcases hop with hop | hop
    · exact List.find?_eq_none.mp hold op hop
    · cases d with
      | group g => cases hop
      | operator op₁ =>
        cases List.mem_singleton.mp hop
        simpa [Declaration.key, Operator.key] using hne

/-- Declarations of distinct keys, none of which is taken, are all recorded, and none is
reported. -/
theorem record_of_nodup_keys (hkeys : (decls.map Declaration.key).Nodup)
    (hfree : ∀ d ∈ decls, r.duplicate (.declaration d) = none) :
    ((decls.map Item.declaration).foldl recordItem r).groups =
        r.groups ++ decls.filterMap Declaration.group? ∧
      ((decls.map Item.declaration).foldl recordItem r).operators =
        r.operators ++ decls.filterMap Declaration.operator? ∧
      r.loadErrors (decls.map .declaration) = [] := by
  induction decls generalizing r with
  | nil => exact ⟨(List.append_nil _).symm, (List.append_nil _).symm, rfl⟩
  | cons d rest ih =>
    rw [List.map_cons, List.nodup_cons] at hkeys
    obtain ⟨hnew, hkeys⟩ := hkeys
    have hd := hfree d List.mem_cons_self
    -- what is free of clashes stays so behind a declaration of another key
    have hrest : ∀ d' ∈ rest,
        (r.recordItem (.declaration d)).duplicate (.declaration d') = none := by
      intro d' hd'
      refine duplicate_recordItem hd (hfree d' (List.mem_cons_of_mem _ hd')) ?_
      rintro heq
      exact hnew (List.mem_map.mpr ⟨d', hd', heq.symm⟩)
    obtain ⟨hgroups, hoperators⟩ := recordItem_of_not_duplicate hd
    obtain ⟨hgroups', hoperators', herrors⟩ := ih hkeys hrest
    refine ⟨?_, ?_, ?_⟩
    · rw [List.map_cons, List.foldl_cons, hgroups', hgroups, List.append_assoc]
      cases d <;> rfl
    · rw [List.map_cons, List.foldl_cons, hoperators', hoperators, List.append_assoc]
      cases d <;> rfl
    · rw [List.map_cons, loadErrors, hd, herrors]
      rfl

/-! ## The same declarations -/

/-- Two registries hold the same groups and the same operators, in whatever order. -/
structure SameDeclarations (r r' : Registry) : Prop where
  groups : ∀ g, g ∈ r.groups ↔ g ∈ r'.groups
  operators : ∀ op, op ∈ r.operators ↔ op ∈ r'.operators

/-- The registry that some declarations make up on their own. -/
def holding (decls : List Declaration) : Registry :=
  (decls.map Item.declaration).foldl recordItem empty

/-- A registry that holds declarations is consistent. -/
theorem consistent_holding (decls : List Declaration) : (holding decls).Consistent :=
  (Reachable.empty.record _).consistent

/-- Declarations of distinct keys are all in the registry that they make up. -/
theorem holding_of_nodup_keys (hkeys : (decls.map Declaration.key).Nodup) :
    (holding decls).groups = decls.filterMap Declaration.group? ∧
      (holding decls).operators = decls.filterMap Declaration.operator? ∧
      empty.loadErrors (decls.map .declaration) = [] := by
  refine record_of_nodup_keys (r := empty) hkeys fun d _ => ?_
  cases d <;> rfl

/-- Without duplicates, the order of declarations does not matter to what a registry holds. -/
theorem sameDeclarations_of_perm (hkeys : (decls.map Declaration.key).Nodup)
    (hperm : decls.Perm decls') : (holding decls).SameDeclarations (holding decls') := by
  obtain ⟨hgroups, hoperators, -⟩ := holding_of_nodup_keys hkeys
  obtain ⟨hgroups', hoperators', -⟩ :=
    holding_of_nodup_keys ((hperm.map Declaration.key).nodup hkeys)
  constructor
  · intro g
    rw [hgroups, hgroups']
    exact (hperm.filterMap _).mem_iff
  · intro op
    rw [hoperators, hoperators']
    exact (hperm.filterMap _).mem_iff

namespace SameDeclarations

variable (h : r.SameDeclarations r') (hr : r.Consistent) (hr' : r'.Consistent)
include h hr hr'

/-- The same declarations have the same groups under all names. -/
theorem group?_eq (name : String) : r.group? name = r'.group? name := by
  apply Option.ext
  intro g
  rw [hr.group?_eq_some_iff, hr'.group?_eq_some_iff, h.groups]

theorem operator?_eq (name : String) (fixity : Fixity) :
    r.operator? name fixity = r'.operator? name fixity := by
  apply Option.ext
  intro op
  rw [hr.operator?_eq_some_iff, hr'.operator?_eq_some_iff, h.operators]

/-- Operators are resolved in the same way. -/
theorem levelOf_eq (use : OperatorUse) : r.levelOf use = r'.levelOf use := by
  rw [levelOf, levelOf, h.operator?_eq hr hr']
  simp only [h.group?_eq hr hr']

theorem level_eq (use : OperatorUse) : r.level use = r'.level use := by
  rw [level, level, h.levelOf_eq hr hr']

omit hr hr' in
/-- Under the same declarations, groups are related in the same way. -/
theorem above_iff {a b : PrecedenceGroup} : r.Above a b ↔ r'.Above a b := by
  rw [Above, Above, h.groups, h.groups]

omit hr hr' in
theorem tighter_iff {a b : Level} : r.Tighter a b ↔ r'.Tighter a b := by
  have habove : r.Above = r'.Above := by
    funext a b
    exact propext h.above_iff
  cases a with
  | implicit => exact Iff.rfl
  | declared g =>
    cases b with
    | implicit => exact Iff.rfl
    | declared g' =>
      show Relation.TransGen r.Above g g' ↔ Relation.TransGen r'.Above g g'
      rw [habove]

omit hr hr' in
theorem registered_iff {a : Level} : r.Registered a ↔ r'.Registered a :=
  forall₂_congr fun g _ => h.groups g

/-- Levels stand to each other in the same way. -/
theorem order_eq {a b : Level} (ha : r.Registered a) (hb : r.Registered b) :
    r.order a b = r'.order a b := by
  have hab := hr.order_levels ha hb
  have hab' := hr'.order_levels (h.registered_iff.mp ha) (h.registered_iff.mp hb)
  rw [h.tighter_iff, h.tighter_iff (a := b)] at hab
  rcases hab with ⟨ho, _⟩ | ⟨ho, _⟩ | ⟨ho, _⟩ | ⟨ho, _⟩ <;>
    rcases hab' with ⟨ho', _⟩ | ⟨ho', _⟩ | ⟨ho', _⟩ | ⟨ho', _⟩ <;> simp_all

end SameDeclarations

/-! ## Comparisons by name -/

/-- How the group of one name stands to that of another; a name without a group stands to no other
name. -/
def nameOrder (r : Registry) (a b : String) : Order :=
  if a = b then .equal
  else
    match r.group? a, r.group? b with
    | some g, some k => r.order (.declared g) (.declared k)
    | _, _ => .unordered

/-- Names are compared whatever the limit. -/
theorem yields_compareNames (r : Registry) (a b : String) :
    ∃ es, Yields (r.compareNames a b) (r.nameOrder a b) es := by
  have hunordered : Yields (pure Order.unordered) .unordered [] := yields_pure _
  rw [compareNames, nameOrder]
  split
  · exact ⟨_, yields_pure _⟩
  · cases r.group? a with
    | none =>
      cases r.group? b with
      | none => exact ⟨_, (yields_report _).bind ((yields_report _).bind hunordered)⟩
      | some k => exact ⟨_, (yields_report _).bind hunordered⟩
    | some g =>
      cases r.group? b with
      | none => exact ⟨_, (yields_report _).bind hunordered⟩
      | some k => exact ⟨_, r.yields_compare _ _⟩

/-- The same declarations compare names in the same way. -/
theorem SameDeclarations.nameOrder_eq (h : r.SameDeclarations r') (hr : r.Consistent)
    (hr' : r'.Consistent) (a b : String) : r.nameOrder a b = r'.nameOrder a b := by
  have hregistered {name : String} {g : PrecedenceGroup} (hg : r.group? name = some g) :
      r.Registered (.declared g) := by
    rintro _ ⟨⟩
    exact (of_group? hg).1
  rw [nameOrder, nameOrder, ← h.group?_eq hr hr', ← h.group?_eq hr hr']
  split
  · rfl
  · cases hg : r.group? a with
    | none => rfl
    | some g =>
      cases hk : r.group? b with
      | none => rfl
      | some k => exact h.order_eq hr hr' (hregistered hg) (hregistered hk)

end Registry

end OperatorFold
