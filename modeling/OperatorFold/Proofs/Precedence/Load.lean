import OperatorFold.Precedence.Load
import OperatorFold.Proofs.Reporting

/-! # Loads

A load records its items one after another and reports the duplicates among them. `recordItem` and
`duplicate` say what it does about one item, and `loadErrors` lists what it reports.

The errors of a load decide where it ends. Behind items whose errors do not reach the limit it goes
on as a load of the others (`loadFrom_append`), and it ends at the item whose error does
(`loadFrom_cons_ended`), with the items in front of it recorded (`load_apply_ended`).
-/

namespace OperatorFold.Registry

open Reporting

/-- The registry with one more item recorded; a node, and a declaration whose name is taken, change
nothing. -/
def recordItem (r : Registry) : Item Node → Registry
  | .declaration (.group g) => (r.recordGroup g).1
  | .declaration (.operator op) => (r.recordOperator op).1
  | .node _ => r

/-- The error of an item, if it is a declaration whose name is taken. -/
def duplicate (r : Registry) : Item Node → Option PrecedenceError
  | .declaration (.group g) => (r.group? g.name).map (.groupAlreadyExists · g)
  | .declaration (.operator op) =>
    (r.operator? op.name op.fixity).map (.operatorAlreadyExists · op)
  | .node _ => none

/-- The errors of a load, in the order of its items. -/
def loadErrors (r : Registry) : List (Item Node) → List PrecedenceError
  | [] => []
  | item :: rest => (r.duplicate item).toList ++ loadErrors (r.recordItem item) rest

variable {r : Registry} {item : Item Node} {items before rest : List (Item Node)}
  {e : PrecedenceError} {es : List PrecedenceError} {limit : Limit} {j : Journal}

/-- A duplicate changes nothing. -/
theorem recordItem_of_duplicate (h : r.duplicate item = some e) : r.recordItem item = r := by
  match item with
  | .declaration (.group g) =>
    obtain ⟨existing, hg, -⟩ := Option.map_eq_some_iff.mp h
    rw [recordItem, recordGroup, hg]
  | .declaration (.operator op) =>
    obtain ⟨existing, hop, -⟩ := Option.map_eq_some_iff.mp h
    rw [recordItem, recordOperator, hop]
  | .node _ => rfl

/-- Only declarations are duplicates. -/
theorem exists_declaration_of_duplicate (h : r.duplicate item = some e) :
    ∃ d, item = .declaration d := by
  cases item with
  | declaration d => exact ⟨d, rfl⟩
  | node n => cases h

/-- The errors of some items and others are those of the former and, behind these, those of the
latter. -/
theorem loadErrors_append (r : Registry) (before rest : List (Item Node)) :
    r.loadErrors (before ++ rest) =
      r.loadErrors before ++ (before.foldl recordItem r).loadErrors rest := by
  induction before generalizing r with
  | nil => rfl
  | cons item before ih =>
    rw [List.cons_append, loadErrors, ih, loadErrors, List.append_assoc]
    rfl

/-- The first error of a load is that of an item behind items without errors. -/
theorem exists_of_loadErrors_cons (h : r.loadErrors items = e :: es) :
    ∃ before item rest, items = before ++ item :: rest ∧ r.loadErrors before = [] ∧
      (before.foldl recordItem r).duplicate item = some e := by
  -- on the items, up to the first one that is a duplicate of those in front of it
  induction items generalizing r with
  | nil => cases h
  | cons item items ih =>
    rw [loadErrors] at h
    cases hdup : r.duplicate item with
    | none =>
      rw [hdup] at h
      obtain ⟨before, first, rest, rfl, hbefore, hfirst⟩ := ih h
      refine ⟨item :: before, first, rest, rfl, ?_, hfirst⟩
      rw [loadErrors, hdup, hbefore]
      rfl
    | some first =>
      rw [hdup] at h
      injection h with hfirst _
      rw [hfirst] at hdup
      exact ⟨[], item, items, rfl, rfl, hdup⟩

/-! ## Running a load -/

/-- Loading one item records it and never ends the run. -/
theorem loadItem_apply (r : Registry) (item : Item Node) (limit : Limit) (j : Journal) :
    ∃ grown j', r.loadItem item limit j = (.ok (r.recordItem item, grown, r.duplicate item), j') ∧
      j'.errors = j.errors := by
  match item with
  | .declaration (.group g) =>
    rw [loadItem, recordItem, duplicate, recordGroup]
    cases r.group? g.name with
    | none => exact ⟨_, _, rfl, rfl⟩
    | some existing => exact ⟨_, _, rfl, rfl⟩
  | .declaration (.operator op) =>
    rw [loadItem, recordItem, duplicate, recordOperator]
    cases r.operator? op.name op.fixity with
    | none => exact ⟨_, _, rfl, rfl⟩
    | some existing => exact ⟨_, _, rfl, rfl⟩
  | .node n => exact ⟨_, _, rfl, rfl⟩

/-- An item that is no duplicate is recorded, and the load goes on. -/
theorem loadFrom_cons (hdup : r.duplicate item = none) (added : Nat) (rest : List (Item Node))
    (limit : Limit) (j : Journal) :
    ∃ added' j', r.loadFrom added (item :: rest) limit j =
        (r.recordItem item).loadFrom added' rest limit j' ∧ j'.errors = j.errors := by
  obtain ⟨grown, j', hitem, hj'⟩ := r.loadItem_apply item limit j
  rw [loadFrom, bind_apply_ok hitem, hdup]
  exact ⟨_, j', rfl, hj'⟩

/-- A duplicate is reported, and the load goes on if the error does not reach the limit. -/
theorem loadFrom_cons_duplicate (hdup : r.duplicate item = some e)
    (hlimit : limit.Allows (j.errors.length + 1)) (added : Nat) (rest : List (Item Node)) :
    ∃ j', r.loadFrom added (item :: rest) limit j = r.loadFrom added rest limit j' ∧
      j'.errors = j.errors ++ [e] := by
  obtain ⟨grown, j₁, hitem, hj₁⟩ := r.loadItem_apply item limit j
  rw [← hj₁] at hlimit ⊢
  rw [loadFrom, bind_apply_ok hitem, hdup, recordItem_of_duplicate hdup]
  refine ⟨{ j₁ with errors := j₁.errors ++ [e] }, ?_, rfl⟩
  simp only [bind_apply, attempt, report_apply e hlimit]

/-- Else the load ends at the duplicate. -/
theorem loadFrom_cons_ended {k : Nat} (hdup : r.duplicate item = some e)
    (hlimit : k ≤ j.errors.length + 1) (added : Nat) (rest : List (Item Node)) :
    ∃ j', r.loadFrom added (item :: rest) (some k) j = (.ok ⟨r, some (.rejected e)⟩, j') ∧
      j'.errors = j.errors ++ [e] := by
  obtain ⟨grown, j₁, hitem, hj₁⟩ := r.loadItem_apply item (some k) j
  rw [← hj₁] at hlimit ⊢
  rw [loadFrom, bind_apply_ok hitem, hdup, recordItem_of_duplicate hdup]
  refine ⟨{ j₁ with errors := j₁.errors ++ [e] }, ?_, rfl⟩
  simp only [bind_apply, attempt, report_apply_halt e hlimit]
  rfl

/-- Behind items whose errors do not reach the limit a load goes on with the others. -/
theorem loadFrom_append
    (h : limit.Allows (j.errors.length + (r.loadErrors before).length)) (added : Nat)
    (rest : List (Item Node)) :
    ∃ added' j', r.loadFrom added (before ++ rest) limit j =
        (before.foldl recordItem r).loadFrom added' rest limit j' ∧
      j'.errors = j.errors ++ r.loadErrors before := by
  -- on the items in front; neither one that is recorded nor a duplicate reaches the limit
  induction before generalizing r added j with
  | nil => exact ⟨added, j, rfl, (List.append_nil _).symm⟩
  | cons item before ih =>
    rw [loadErrors] at h ⊢
    cases hdup : r.duplicate item with
    | none =>
      obtain ⟨added₁, j₁, hstep, hj₁⟩ := loadFrom_cons hdup added (before ++ rest) limit j
      rw [hdup, ← hj₁] at h
      obtain ⟨added', j', hrun, hj'⟩ := ih h added₁
      refine ⟨added', j', hstep.trans hrun, ?_⟩
      rw [hj', hj₁]
      rfl
    | some e =>
      rw [hdup, recordItem_of_duplicate hdup, List.length_append, Option.toList_some,
        List.length_singleton] at h
      have hfirst : limit.Allows (j.errors.length + 1) := h.mono (by omega)
      obtain ⟨j₁, hstep, hj₁⟩ := loadFrom_cons_duplicate hdup hfirst added (before ++ rest)
      have hothers : limit.Allows (j₁.errors.length + (r.loadErrors before).length) := by
        rw [hj₁, List.length_append, List.length_singleton]
        exact h.mono (by omega)
      obtain ⟨added', j', hrun, hj'⟩ := ih hothers added
      rw [List.foldl_cons, recordItem_of_duplicate hdup]
      refine ⟨added', j', hstep.trans hrun, ?_⟩
      rw [hj', hj₁, List.append_assoc]
      rfl

/-- A load whose errors do not reach the limit records all of its items and reports all of its
errors. -/
theorem load_apply (items : List (Item Node))
    (h : limit.Allows (j.errors.length + (r.loadErrors items).length)) :
    ∃ j', r.load items limit j = (.ok { registry := items.foldl recordItem r }, j') ∧
      j'.errors = j.errors ++ r.loadErrors items := by
  obtain ⟨added, j₁, hrun, hj₁⟩ := loadFrom_append h 0 []
  rw [List.append_nil] at hrun
  exact ⟨_, hrun, hj₁⟩

/-- A load ends at the item whose error reaches the limit, with those in front of it recorded. -/
theorem load_apply_ended {k : Nat} (hdup : (before.foldl recordItem r).duplicate item = some e)
    (hk : k = j.errors.length + (r.loadErrors before).length + 1) :
    ∃ j', r.load (before ++ item :: rest) (some k) j =
        (.ok ⟨before.foldl recordItem r, some (.rejected e)⟩, j') ∧
      j'.errors = j.errors ++ r.loadErrors before ++ [e] := by
  have hbefore : Limit.Allows (some k) (j.errors.length + (r.loadErrors before).length) :=
    Limit.allows_some.mpr (by omega)
  obtain ⟨added, j₁, hrun, hj₁⟩ := loadFrom_append hbefore 0 (item :: rest)
  have hended : k ≤ j₁.errors.length + 1 := by
    rw [hj₁, List.length_append]
    omega
  obtain ⟨j', hend, hj'⟩ := loadFrom_cons_ended hdup hended added rest
  exact ⟨j', hrun.trans hend, hj₁ ▸ hj'⟩

/-- A load up to the first error ends with it. -/
theorem load_apply_rejected (h : r.loadErrors items = e :: es) (hj : j.errors = []) :
    ∃ loaded j', r.load items (some 1) j = (.ok loaded, j') ∧
      loaded.ended = some (.rejected e) ∧ j'.errors = [e] := by
  obtain ⟨before, item, rest, rfl, hbefore, hdup⟩ := exists_of_loadErrors_cons h
  have hone : 1 = j.errors.length + (r.loadErrors before).length + 1 := by
    rw [hj, hbefore]
    rfl
  obtain ⟨j', hrun, hj'⟩ := load_apply_ended hdup hone
  refine ⟨_, j', hrun, rfl, ?_⟩
  rw [hj', hj, hbefore]
  rfl

end OperatorFold.Registry
