import OperatorFold.Proofs.Earlier
import OperatorFold.Proofs.Precedence.Reordering

/-! # What a registry remembers

Of all that was ever recorded in a registry it holds the first declaration of each key, in the order
in which these came: one group is added if its name is free (`groups_recordItem`), so over a history
just the newcomers are (`groups_record`). The same goes for operators.

Registries are recorded in and copied side by side, and a copy goes its own way from then on. A
store of registries is what the histories of its entries come to, each on its own
(`registries_eq`). So what holds of a registry and its history holds all over the store
(`registries_remember`).
-/

namespace OperatorFold

namespace Registry

variable {r : Registry} {d : Declaration} {g : PrecedenceGroup} {op : Operator}

/-! ## Recording -/

/-- No group is found under a free name. -/
theorem group?_eq_none : r.group? g.name = none ↔ g.name ∉ r.groups.map (·.name) :=
  find?_key_eq_none

theorem operator?_eq_none :
    r.operator? op.name op.fixity = none ↔ op.key ∉ r.operators.map (·.key) :=
  find?_key_eq_none (k := op.key)

/-- A declaration adds its group, if it has one whose name is free. -/
theorem groups_recordItem (r : Registry) (d : Declaration) :
    (r.recordItem (.declaration d)).groups = d.group?.toList.foldl (addNew (·.name)) r.groups := by
  cases d with
  | group g =>
    show (r.recordGroup g).1.groups = addNew (·.name) r.groups g
    rw [recordGroup, addNew]
    cases hg : r.group? g.name with
    | none => rw [if_neg (group?_eq_none.mp hg)]
    | some existing =>
      have htaken : ¬r.group? g.name = none := by simp [hg]
      rw [if_pos (not_not.mp (mt group?_eq_none.mpr htaken))]
  | operator op =>
    show (r.recordOperator op).1.groups = r.groups
    rw [recordOperator]
    cases r.operator? op.name op.fixity <;> rfl

theorem operators_recordItem (r : Registry) (d : Declaration) :
    (r.recordItem (.declaration d)).operators =
      d.operator?.toList.foldl (addNew (·.key)) r.operators := by
  cases d with
  | group g =>
    show (r.recordGroup g).1.operators = r.operators
    rw [recordGroup]
    cases r.group? g.name <;> rfl
  | operator op =>
    show (r.recordOperator op).1.operators = addNew (·.key) r.operators op
    rw [recordOperator, addNew]
    cases hop : r.operator? op.name op.fixity with
    | none => rw [if_neg (operator?_eq_none.mp hop)]
    | some existing =>
      have htaken : ¬r.operator? op.name op.fixity = none := by simp [hop]
      rw [if_pos (not_not.mp (mt operator?_eq_none.mpr htaken))]

/-- Of some declarations the groups of new names are added. -/
theorem groups_record (r : Registry) (decls : List Declaration) :
    ((decls.map Item.declaration).foldl recordItem r).groups =
      r.groups ++ newcomers (·.name) r.groups (decls.filterMap Declaration.group?) := by
  rw [← foldl_addNew]
  induction decls generalizing r with
  | nil => rfl
  | cons d rest ih =>
    rw [List.map_cons, List.foldl_cons, ih, groups_recordItem]
    cases d <;> rfl

/-- And so are the operators of new keys. -/
theorem operators_record (r : Registry) (decls : List Declaration) :
    ((decls.map Item.declaration).foldl recordItem r).operators =
      r.operators ++ newcomers (·.key) r.operators (decls.filterMap Declaration.operator?) := by
  rw [← foldl_addNew]
  induction decls generalizing r with
  | nil => rfl
  | cons d rest ih =>
    rw [List.map_cons, List.foldl_cons, ih, operators_recordItem]
    cases d <;> rfl

/-- A lookup finds what was there, and else the first declaration that came under its name. -/
theorem group?_record (r : Registry) (decls : List Declaration) (name : String) :
    ((decls.map Item.declaration).foldl recordItem r).group? name =
      (r.groups ++ decls.filterMap Declaration.group?).find? (·.name = name) := by
  rw [group?, groups_record, find?_append_newcomers]

/-- The first of all operators with a key is found, first in the registry and then among the
declarations. -/
theorem operator?_record (r : Registry) (decls : List Declaration) (name : String)
    (fixity : Fixity) :
    ((decls.map Item.declaration).foldl recordItem r).operator? name fixity =
      (r.operators ++ decls.filterMap Declaration.operator?).find? (·.key = (name, fixity)) := by
  rw [operator?, operators_record, find?_append_newcomers]

/-! ## Histories -/

/-- A registry answers for a history. Lookups find the first declaration that was ever recorded
under their key, and the lists hold just these, in the order in which they came. The indexes list,
for every name, declared or not, the registered groups in their order, each once for each relation
that it has to the name. To record under a taken key hands back the declaration that has it, and
changes nothing. -/
structure Remembers (r : Registry) (history : List Declaration) : Prop where
  group?_eq : ∀ name, r.group? name =
    (history.filterMap Declaration.group?).find? (·.name = name)
  operator?_eq : ∀ name fixity, r.operator? name fixity =
    (history.filterMap Declaration.operator?).find? (·.key = (name, fixity))
  groups_eq : r.groups = newcomers (·.name) [] (history.filterMap Declaration.group?)
  operators_eq : r.operators = newcomers (·.key) [] (history.filterMap Declaration.operator?)
  relatedTo_eq : ∀ kind name, r.relatedTo kind name =
    r.groups.flatMap fun g => List.replicate ((g.relationsOf kind).countP (·.target = name)) g
  recordGroup_snd : ∀ g, (r.recordGroup g).2 =
    (history.filterMap Declaration.group?).find? (·.name = g.name)
  recordGroup_fst : ∀ g, (r.recordGroup g).2.isSome → (r.recordGroup g).1 = r
  recordOperator_snd : ∀ op, (r.recordOperator op).2 =
    (history.filterMap Declaration.operator?).find? (·.key = op.key)
  recordOperator_fst : ∀ op, (r.recordOperator op).2.isSome → (r.recordOperator op).1 = r

/-- Recording a group answers with the one that has its name, if there is one. -/
theorem recordGroup_snd (r : Registry) (g : PrecedenceGroup) :
    (r.recordGroup g).2 = r.group? g.name := by
  rw [recordGroup]
  cases r.group? g.name <;> rfl

/-- A group whose name is taken changes nothing. -/
theorem recordGroup_fst_of_taken (h : (r.recordGroup g).2.isSome) : (r.recordGroup g).1 = r := by
  rw [recordGroup_snd] at h
  rw [recordGroup]
  cases hg : r.group? g.name with
  | none => simp [hg] at h
  | some existing => rfl

theorem recordOperator_snd (r : Registry) (op : Operator) :
    (r.recordOperator op).2 = r.operator? op.name op.fixity := by
  rw [recordOperator]
  cases r.operator? op.name op.fixity <;> rfl

theorem recordOperator_fst_of_taken (h : (r.recordOperator op).2.isSome) :
    (r.recordOperator op).1 = r := by
  rw [recordOperator_snd] at h
  rw [recordOperator]
  cases hop : r.operator? op.name op.fixity with
  | none => simp [hop] at h
  | some existing => rfl

/-- The registry that a history makes up answers for it. -/
theorem holding_remembers (history : List Declaration) : (holding history).Remembers history where
  group?_eq := group?_record .empty history
  operator?_eq := operator?_record .empty history
  groups_eq := groups_record .empty history
  operators_eq := operators_record .empty history
  relatedTo_eq := (consistent_holding history).relatedTo_eq
  recordGroup_snd g := (recordGroup_snd _ g).trans (group?_record .empty history g.name)
  recordGroup_fst _ := recordGroup_fst_of_taken
  recordOperator_snd op :=
    (recordOperator_snd _ op).trans (operator?_record .empty history op.name op.fixity)
  recordOperator_fst _ := recordOperator_fst_of_taken

/-- To hold some declarations and others is to record the latter behind the former. -/
theorem holding_append (history decls : List Declaration) :
    holding (history ++ decls) =
      (decls.map Item.declaration).foldl recordItem (holding history) := by
  rw [holding, holding, List.map_append, List.foldl_append]

end Registry

/-! ## A store of registries -/

/-- A call on a store of registries: one of them takes a declaration, accepted or not, or is
copied. -/
inductive StoreCall where
  | record (i : Nat) (d : Declaration)
  | copy (i : Nat)
deriving DecidableEq

namespace StoreCall

variable {α β : Type}

/-- What a call does to a store, where `record` says what it does to an entry to record a
declaration in it. A copy comes behind all entries; without an entry of the given number nothing is
done. -/
def apply (record : α → Declaration → α) (store : List α) : StoreCall → List α
  | .record i d => store.modify i (record · d)
  | .copy i => store ++ store[i]?.toList

/-- A change of one entry of a store is one of its image. -/
theorem map_modify {f : α → β} {change : α → α} {change' : β → β}
    (h : ∀ a, f (change a) = change' (f a)) (store : List α) (i : Nat) :
    (store.modify i change).map f = (store.map f).modify i change' := by
  induction store generalizing i with
  | nil => cases i <;> rfl
  | cons a rest ih =>
    cases i with
    | zero => simp [h]
    | succ i => simp [ih]

/-- A call does the same to what entries come to, if to record does. -/
theorem map_apply {f : α → β} {record : α → Declaration → α} {record' : β → Declaration → β}
    (h : ∀ a d, f (record a d) = record' (f a) d) (store : List α) (c : StoreCall) :
    (c.apply record store).map f = c.apply record' (store.map f) := by
  cases c with
  | record i d => exact map_modify (h · d) store i
  | copy i => cases hi : store[i]? <;> simp [apply, hi]

/-- So do calls in a row. -/
theorem map_foldl_apply (f : α → β) (record : α → Declaration → α) (record' : β → Declaration → β)
    (h : ∀ a d, f (record a d) = record' (f a) d) (calls : List StoreCall) (store : List α) :
    (calls.foldl (apply record) store).map f = calls.foldl (apply record') (store.map f) := by
  induction calls generalizing store with
  | nil => rfl
  | cons c rest ih => rw [List.foldl_cons, List.foldl_cons, ih, map_apply h]

end StoreCall

/-- The registries that calls make of a single empty one. -/
def registries (calls : List StoreCall) : List Registry :=
  calls.foldl (StoreCall.apply fun r d => r.recordItem (.declaration d)) [.empty]

/-- All that was recorded in each of these registries, and in those that it was copied from before
it was copied. -/
def histories (calls : List StoreCall) : List (List Declaration) :=
  calls.foldl (StoreCall.apply fun history d => history ++ [d]) [[]]

/-- Each registry is what its own history comes to. -/
theorem registries_eq (calls : List StoreCall) :
    registries calls = (histories calls).map Registry.holding :=
  (StoreCall.map_foldl_apply Registry.holding (fun history d => history ++ [d])
    (fun r d => r.recordItem (.declaration d)) (Registry.holding_append · [·]) calls [[]]).symm

/-- **A registry remembers what came first.** After any calls on a store of registries, every one of
them answers for all that was recorded in it, and for nothing else: for what came before it was
copied, but for nothing that the registry it was copied from, or a copy of it, has taken since. -/
theorem registries_remember (calls : List StoreCall) :
    List.Forall₂ Registry.Remembers (registries calls) (histories calls) := by
  rw [registries_eq, List.forall₂_map_left_iff, List.forall₂_same]
  exact fun history _ => Registry.holding_remembers history

/-- A second group `a` is not taken, and what the copy takes the registry does not. -/
example : (registries [.record 0 (.group { name := "a" }), .copy 0,
    .record 0 (.group { name := "a", associativity := .left }),
    .record 1 (.group { name := "b" })]).map (·.groups.map (·.name)) = [["a"], ["a", "b"]] := by
  decide

end OperatorFold
