import OperatorFold.Proofs.Precedence.Recorded

/-! # What a load adds and reports

A load looks at the declarations among its items only (`record_eq`). Each of them meets, under its
key, the first declaration that the registry has or that stands in front of it (`clash`). If there
is one, it is reported together with that one; if there is none, it is added. So every declaration
is either added or reported, and neither twice (`length_record`).
-/

namespace OperatorFold.Registry

open Reporting

variable {r : Registry} {d : Declaration}

/-! ## Only declarations count -/

/-- The declarations among some items, in their order. -/
def declarationsOf (items : List (Item Node)) : List Declaration :=
  items.filterMap Item.declaration?

/-- Only the declarations among items are recorded. -/
theorem record_eq (r : Registry) (items : List (Item Node)) :
    items.foldl recordItem r = ((declarationsOf items).map .declaration).foldl recordItem r := by
  induction items generalizing r with
  | nil => rfl
  | cons item rest ih =>
    cases item with
    | declaration d => exact ih _
    | node n => exact ih r

/-- Only the declarations among items are reported. -/
theorem loadErrors_eq (r : Registry) (items : List (Item Node)) :
    r.loadErrors items = r.loadErrors ((declarationsOf items).map .declaration) := by
  induction items generalizing r with
  | nil => rfl
  | cons item rest ih =>
    rw [loadErrors, ih]
    cases item with
    | declaration d => rfl
    | node n => rfl

/-! ## Duplicates -/

/-- The error of a declaration that comes behind others: the first declaration that has its key
already, in the registry or else among the others. -/
def clash (r : Registry) (before : List Declaration) : Declaration → Option PrecedenceError
  | .group g =>
    ((r.groups ++ before.filterMap Declaration.group?).find? (·.name = g.name)).map
      (.groupAlreadyExists · g)
  | .operator op =>
    ((r.operators ++ before.filterMap Declaration.operator?).find? (·.key = op.key)).map
      (.operatorAlreadyExists · op)

/-- Behind others, the error of a declaration is its clash with these or with the registry. -/
theorem duplicate_record (r : Registry) (before : List Declaration) (d : Declaration) :
    ((before.map Item.declaration).foldl recordItem r).duplicate (.declaration d) =
      r.clash before d := by
  cases d with
  | group g => rw [duplicate, group?_record, clash]
  | operator op => rw [duplicate, operator?_record, clash]; rfl

/-- Behind others, declarations are reported that meet one of their key. -/
theorem loadErrors_record (r : Registry) (before decls : List Declaration) :
    ((before.map Item.declaration).foldl recordItem r).loadErrors (decls.map .declaration) =
      (withEarlier decls).filterMap fun entry => r.clash (before ++ entry.1) entry.2 := by
  -- on the declarations, with those in front of them moved to the history one by one
  induction decls generalizing before with
  | nil => rfl
  | cons d rest ih =>
    have hnext : ((before.map Item.declaration).foldl recordItem r).recordItem (.declaration d) =
        ((before ++ [d]).map Item.declaration).foldl recordItem r := by
      rw [List.map_append, List.foldl_append]
      rfl
    rw [List.map_cons, loadErrors, duplicate_record, hnext, ih, withEarlier, List.filterMap_cons,
      List.append_nil, List.filterMap_map]
    have hbehind : ((fun entry : List Declaration × Declaration =>
        r.clash (before ++ entry.1) entry.2) ∘
          fun entry : List Declaration × Declaration => (d :: entry.1, entry.2)) =
        fun entry : List Declaration × Declaration =>
          r.clash (before ++ [d] ++ entry.1) entry.2 := by
      funext entry
      rw [Function.comp_apply, ← List.append_cons]
    rw [hbehind]
    cases r.clash before d <;> rfl

/-- The errors of a load that leads to the registry `r`. Each is about a declaration, and about the
one of the same kind and key that a lookup finds from then on. -/
inductive Clashing (r : Registry) (decls : List Declaration) : PrecedenceError → Prop
  | group {existing new : PrecedenceGroup} (hnew : .group new ∈ decls)
      (hname : existing.name = new.name) (hfound : r.group? new.name = some existing) :
      Clashing r decls (.groupAlreadyExists existing new)
  | operator {existing new : Operator} (hnew : .operator new ∈ decls)
      (hkey : existing.key = new.key) (hfound : r.operator? new.name new.fixity = some existing) :
      Clashing r decls (.operatorAlreadyExists existing new)

/-- What a lookup by key finds among some entries, it also finds with others behind them. -/
theorem find?_filterMap_append {α β : Type} {p : β → Bool} {f : α → Option β} {present : List β}
    {b : β} {before : List α} (behind : List α)
    (h : (present ++ before.filterMap f).find? p = some b) :
    (present ++ (before ++ behind).filterMap f).find? p = some b := by
  rw [List.filterMap_append, ← List.append_assoc, List.find?_append, h]
  rfl

/-- A clash names what has been there before, in the registry or among the declarations in front. -/
theorem clashing_of_clash {before behind : List Declaration} {e : PrecedenceError}
    (h : r.clash before d = some e) :
    Clashing (((before ++ d :: behind).map Item.declaration).foldl recordItem r)
      (before ++ d :: behind) e := by
  have hmem : d ∈ before ++ d :: behind := List.mem_append_right _ List.mem_cons_self
  cases d with
  | group g =>
    obtain ⟨existing, hfind, rfl⟩ := Option.map_eq_some_iff.mp h
    refine .group hmem (by simpa using List.find?_some hfind) ?_
    rw [group?_record]
    exact find?_filterMap_append _ hfind
  | operator op =>
    obtain ⟨existing, hfind, rfl⟩ := Option.map_eq_some_iff.mp h
    refine .operator hmem (by simpa using List.find?_some hfind) ?_
    rw [operator?_record]
    exact find?_filterMap_append _ hfind

/-! ## Everything is added or reported -/

/-- A declaration is added or is a duplicate. -/
theorem length_recordItem (r : Registry) (d : Declaration) :
    (r.recordItem (.declaration d)).groups.length +
      (r.recordItem (.declaration d)).operators.length +
      (r.duplicate (.declaration d)).toList.length = r.groups.length + r.operators.length + 1 := by
  cases hdup : r.duplicate (.declaration d) with
  | some e => rw [recordItem_of_duplicate hdup]; rfl
  | none =>
    obtain ⟨hgroups, hoperators⟩ := recordItem_of_not_duplicate hdup
    rw [hgroups, hoperators]
    cases d <;> simp [Declaration.group?, Declaration.operator?] <;> omega

/-- So all declarations are added or are duplicates. -/
theorem length_record (r : Registry) (decls : List Declaration) :
    ((decls.map Item.declaration).foldl recordItem r).groups.length +
      ((decls.map Item.declaration).foldl recordItem r).operators.length +
      (r.loadErrors (decls.map .declaration)).length =
    r.groups.length + r.operators.length + decls.length := by
  induction decls generalizing r with
  | nil => rfl
  | cons d rest ih =>
    have hfirst := r.length_recordItem d
    have hrest := ih (r.recordItem (.declaration d))
    rw [List.map_cons, List.foldl_cons, loadErrors, List.length_append, List.length_cons]
    omega

/-! ## A whole load -/

/-- A load within the limit records all items and reports the duplicates among them. -/
theorem load_completes (r : Registry) (items : List (Item Node)) :
    Completes (r.load items) { registry := items.foldl recordItem r } (r.loadErrors items) :=
  fun _ _ hlimit => load_apply items hlimit

/-- No declaration of a ready-made table is about a name or key taken by another. -/
theorem registry_completes (preset : Preset) :
    Completes preset.registry (holding preset.declarations) [] := by
  have hnone : empty.loadErrors (preset.declarations.map .declaration) = [] := by
    cases preset <;> decide +kernel
  have hload : Completes (empty.load (preset.declarations.map .declaration))
      { registry := holding preset.declarations } [] := by
    rw [← hnone]
    exact load_completes empty _
  have htable : Completes (ofDeclarations (preset.declarations.map .declaration))
      (holding preset.declarations) [] := hload.bind (completes_pure _)
  cases preset with
  | none => exact completes_pure _
  | _ => exact htable

/-- **A load adds what is new and reports the rest.** Without a limit a load of any items leads to
the registry's groups with the groups of new names behind them, and to its operators with those of
new keys, where a name or key is new if neither the registry has it nor an earlier declaration of
the load. For every other declaration one error is reported. It names the declaration and the one
registered under the same name, and for operators with the same fixity. -/
theorem load_declarations (r : Registry) (items : List (Item Node)) :
    ∃ outcome, (r.load items).collect = .ok outcome ∧
      outcome.value.ended = none ∧
      outcome.value.registry.groups = r.groups ++
        newcomers (·.name) r.groups ((declarationsOf items).filterMap Declaration.group?) ∧
      outcome.value.registry.operators = r.operators ++
        newcomers (·.key) r.operators ((declarationsOf items).filterMap Declaration.operator?) ∧
      outcome.errors =
        (withEarlier (declarationsOf items)).filterMap (fun entry => r.clash entry.1 entry.2) ∧
      outcome.value.registry.groups.length + outcome.value.registry.operators.length +
        outcome.errors.length =
          r.groups.length + r.operators.length + (declarationsOf items).length ∧
      ∀ e ∈ outcome.errors, Clashing outcome.value.registry (declarationsOf items) e := by
  obtain ⟨j, hrun, hj⟩ := r.load_completes items none {} (Limit.allows_none _)
  have herrors : j.errors =
      (withEarlier (declarationsOf items)).filterMap fun entry => r.clash entry.1 entry.2 := by
    rw [hj, loadErrors_eq]
    exact r.loadErrors_record [] (declarationsOf items)
  refine ⟨_, collect_of_apply hrun, rfl, ?_, ?_, herrors, ?_, ?_⟩
  · rw [record_eq, groups_record]
  · rw [record_eq, operators_record]
  · rw [hj, loadErrors_eq, record_eq]
    exact r.length_record (declarationsOf items)
  · -- a clash is with the registry or with a declaration in front, and both are found in what is
    -- held
    intro e he
    rw [herrors] at he
    obtain ⟨entry, hentry, hclash⟩ := List.mem_filterMap.mp he
    obtain ⟨behind, hdecls⟩ := exists_of_mem_withEarlier hentry
    rw [record_eq, hdecls]
    exact clashing_of_clash hclash

end OperatorFold.Registry
