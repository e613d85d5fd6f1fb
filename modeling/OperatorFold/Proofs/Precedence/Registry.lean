import OperatorFold.Proofs.Precedence.Load
import Mathlib.Data.List.Nodup

/-! # Registries that loading reaches

`Reachable` collects the registries that come out of any number of loads, each of any items and
however it ended. A load records the items of a prefix of its list (`loadFrom_registry`), so
whatever holds of the empty registry and survives the recording of one item holds of all reachable
registries (`Reachable.induct`).

`Consistent` is such a property: names are unique, and the two indexes hold nothing but the
relations of the registered groups, in the order in which the groups came.
-/

namespace OperatorFold

/-! ## The relation index -/

namespace RelationIndex

/-- A name is looked up entry by entry. -/
theorem get_cons (n name : String) (groups : List PrecedenceGroup) (rest : RelationIndex) :
    get ((n, groups) :: rest) name = if n = name then groups else get rest name := by
  rw [get, List.find?_cons]
  by_cases h : n = name
  · simp only [h, decide_true, if_true]
  · simp only [h, decide_false, if_false, get]

/-- One more group is related to a name, and to no other. -/
theorem get_add (index : RelationIndex) (target name : String) (g : PrecedenceGroup) :
    get (index.add target g) name = get index name ++ if target = name then [g] else [] := by
  induction index with
  | nil =>
    rw [add, get_cons]
    rfl
  | cons entry rest ih =>
    obtain ⟨n, groups⟩ := entry
    rw [add]
    by_cases hn : n = target
    · -- the entry of the name itself: the group goes to its end
      rw [if_pos hn, get_cons, get_cons, hn]
      by_cases h : target = name
      · rw [if_pos h, if_pos h, if_pos h]
      · rw [if_neg h, if_neg h, if_neg h, List.append_nil]
    · rw [if_neg hn, get_cons, get_cons, ih]
      by_cases h : n = name
      · have hne : target ≠ name := fun h' => hn (h.trans h'.symm)
        rw [if_pos h, if_pos h, if_neg hne, List.append_nil]
      · rw [if_neg h, if_neg h]

/-- A group is added behind a name once for each of its relations to that name. -/
theorem get_addRelations (index : RelationIndex) (kind : RelationKind) (g : PrecedenceGroup)
    (name : String) :
    get (index.addRelations kind g) name =
      get index name ++ List.replicate ((g.relationsOf kind).countP (·.target = name)) g := by
  rw [addRelations]
  induction g.relationsOf kind generalizing index with
  | nil => rw [List.foldl_nil, List.countP_nil, List.replicate_zero, List.append_nil]
  | cons rel rest ih =>
    rw [List.foldl_cons, ih, get_add, List.append_assoc, List.countP_cons]
    by_cases h : rel.target = name
    · simp only [h, if_true, decide_true, List.replicate_succ, List.singleton_append]
    · simp only [h, if_false, decide_false, Bool.false_eq_true, List.nil_append, Nat.add_zero]

end RelationIndex

namespace Registry

variable {r : Registry}

/-! ## Loads -/

/-- However a load ends, it has recorded its items up to some place, one after another. -/
theorem loadFrom_registry (items : List (Item Node)) {added : Nat} {limit : Limit} {j j' : Journal}
    {loaded : Loaded} (h : r.loadFrom added items limit j = (.ok loaded, j')) :
    ∃ n, loaded.registry = (items.take n).foldl recordItem r := by
  -- on the items: at each one the load either ends, with nothing recorded after it, or goes on
  induction items generalizing r added j with
  | nil =>
    cases h
    exact ⟨0, rfl⟩
  | cons item rest ih =>
    cases hdup : r.duplicate item with
    | none =>
      obtain ⟨added₁, j₁, hstep, -⟩ := loadFrom_cons hdup added rest limit j
      obtain ⟨n, hn⟩ := ih (hstep.symm.trans h)
      exact ⟨n + 1, hn⟩
    | some e =>
      by_cases hlimit : ∃ k ∈ limit, k ≤ j.errors.length + 1
      · obtain ⟨k, rfl, hk⟩ := hlimit
        obtain ⟨j₁, hstep, -⟩ := loadFrom_cons_ended hdup hk added rest
        cases hstep.symm.trans h
        exact ⟨0, rfl⟩
      · have hpass : limit.Allows (j.errors.length + 1) := by
          intro k hk
          exact Nat.lt_of_not_le fun hle => hlimit ⟨k, hk, hle⟩
        obtain ⟨j₁, hstep, -⟩ := loadFrom_cons_duplicate hdup hpass added rest
        obtain ⟨n, hn⟩ := ih (hstep.symm.trans h)
        refine ⟨n + 1, ?_⟩
        rw [List.take_succ_cons, List.foldl_cons, recordItem_of_duplicate hdup]
        exact hn

/-- The registries that come out of loads. The limit and the journal of a load are open, so it may
also have been ended by a duplicate. -/
inductive Reachable : Registry → Prop
  | empty : Reachable .empty
  | load {r : Registry} {items : List (Item Node)} {limit : Limit} {j j' : Journal}
      {loaded : Loaded} (hr : Reachable r) (h : r.load items limit j = (.ok loaded, j')) :
      Reachable loaded.registry

/-- Any items can be recorded in a reachable registry. -/
theorem Reachable.record (hr : r.Reachable) (items : List (Item Node)) :
    (items.foldl recordItem r).Reachable := by
  obtain ⟨j, h, -⟩ := load_apply (j := {}) items (Limit.allows_none _)
  exact hr.load h

/-- What holds of the empty registry and survives the recording of groups and of operators holds of
every reachable registry. -/
theorem Reachable.induct {motive : Registry → Prop} (empty : motive .empty)
    (group : ∀ r g, motive r → motive (recordGroup r g).1)
    (operator : ∀ r op, motive r → motive (recordOperator r op).1) (hr : r.Reachable) :
    motive r := by
  have hitem (r : Registry) (item : Item Node) (h : motive r) : motive (r.recordItem item) := by
    match item with
    | .declaration (.group g) => exact group r g h
    | .declaration (.operator op) => exact operator r op h
    | .node _ => exact h
  have hitems (items : List (Item Node)) (r : Registry) (h : motive r) :
      motive (items.foldl recordItem r) := by
    induction items generalizing r with
    | nil => exact h
    | cons item rest ih => exact ih _ (hitem r item h)
  induction hr with
  | empty => exact empty
  | load _ h ih =>
    -- a load, also one that ended early, records a beginning of its items
    obtain ⟨n, hn⟩ := loadFrom_registry _ h
    rw [hn]
    exact hitems _ _ ih

/-! ## Consistency -/

/-- No name is taken twice, and the indexes list, for every name, the registered groups in the order
in which they came, each once for each relation it has to the name. -/
structure Consistent (r : Registry) : Prop where
  groups_nodup : (r.groups.map (·.name)).Nodup
  operators_nodup : (r.operators.map (·.key)).Nodup
  relatedTo_eq : ∀ kind name, r.relatedTo kind name =
    r.groups.flatMap fun g => List.replicate ((g.relationsOf kind).countP (·.target = name)) g

theorem consistent_empty : empty.Consistent where
  groups_nodup := List.nodup_nil
  operators_nodup := List.nodup_nil
  relatedTo_eq kind name := by cases kind <;> rfl

/-- Recording a group keeps a registry consistent. -/
theorem Consistent.recordGroup (h : r.Consistent) (g : PrecedenceGroup) :
    (r.recordGroup g).1.Consistent := by
  rw [Registry.recordGroup]
  cases hg : r.group? g.name with
  | some existing => exact h
  | none =>
    have hfresh : g.name ∉ r.groups.map (·.name) := by
      intro hmem
      obtain ⟨g', hg', hname⟩ := List.mem_map.mp hmem
      exact List.find?_eq_none.mp hg g' hg' (decide_eq_true hname)
    refine ⟨?_, h.operators_nodup, fun kind name => ?_⟩
    · rw [List.map_append, List.map_singleton, ← List.concat_eq_append]
      exact h.groups_nodup.concat hfresh
    · have hold := h.relatedTo_eq kind name
      rw [List.flatMap_append, ← hold]
      cases kind <;>
        simp only [relatedTo, RelationIndex.get_addRelations, List.flatMap_singleton]

theorem Consistent.recordOperator (h : r.Consistent) (op : Operator) :
    (r.recordOperator op).1.Consistent := by
  rw [Registry.recordOperator]
  cases hop : r.operator? op.name op.fixity with
  | some existing => exact h
  | none =>
    have hfresh : op.key ∉ r.operators.map (·.key) := by
      intro hmem
      obtain ⟨op', hop', hkey⟩ := List.mem_map.mp hmem
      exact List.find?_eq_none.mp hop op' hop' (decide_eq_true hkey)
    refine ⟨h.groups_nodup, ?_, h.relatedTo_eq⟩
    rw [List.map_append, List.map_singleton, ← List.concat_eq_append]
    exact h.operators_nodup.concat hfresh

/-- Every reachable registry is consistent. -/
theorem Reachable.consistent (hr : r.Reachable) : r.Consistent :=
  hr.induct consistent_empty (fun _ g h => h.recordGroup g) (fun _ op h => h.recordOperator op)

/-! ## Names -/

/-- What is found under a name is a group of the registry and has this name. -/
theorem of_group? {name : String} {g : PrecedenceGroup} (h : r.group? name = some g) :
    g ∈ r.groups ∧ g.name = name :=
  ⟨List.mem_of_find?_eq_some h, by simpa using List.find?_some h⟩

/-- A registered group is found under its name. -/
theorem Consistent.group?_eq_some (h : r.Consistent) {g : PrecedenceGroup} (hg : g ∈ r.groups) :
    r.group? g.name = some g := by
  cases hfind : r.group? g.name with
  | none =>
    have hnone := List.find?_eq_none.mp hfind g hg
    exact absurd (decide_eq_true rfl) hnone
  | some g' =>
    obtain ⟨hg', hname⟩ := of_group? hfind
    rw [List.inj_on_of_nodup_map h.groups_nodup hg' hg hname]

/-- The indexes lead from a name to the registered groups that have a relation to it. -/
theorem Consistent.mem_relatedTo (h : r.Consistent) {kind : RelationKind} {name : String}
    {g : PrecedenceGroup} :
    g ∈ r.relatedTo kind name ↔
      g ∈ r.groups ∧ ∃ rel ∈ g.relationsOf kind, rel.target = name := by
  rw [h.relatedTo_eq, List.mem_flatMap]
  constructor
  · rintro ⟨g', hg', hmem⟩
    obtain ⟨hcount, rfl⟩ := List.mem_replicate.mp hmem
    obtain ⟨rel, hrel, htarget⟩ := List.countP_pos_iff.mp (Nat.pos_of_ne_zero hcount)
    exact ⟨hg', rel, hrel, of_decide_eq_true htarget⟩
  · rintro ⟨hg, rel, hrel, htarget⟩
    have hpos : 0 < (g.relationsOf kind).countP (·.target = name) :=
      List.countP_pos_iff.mpr ⟨rel, hrel, decide_eq_true htarget⟩
    exact ⟨g, hg, List.mem_replicate.mpr ⟨Nat.pos_iff_ne_zero.mp hpos, rfl⟩⟩

end Registry

end OperatorFold
