import OperatorFold.Proofs.Fold.Recursion
import OperatorFold.Proofs.Precedence.Load

/-! # Calls

A registry can be called to load declarations, to compare two groups, and to fold a sequence or a
tree. A call leaves a registry behind and comes to an answer, or to the reason why there is none.

There are two ways to make one: to collect all errors, or to fail at the first. The two agree: the
one fails exactly if the other collects an error, and then with the first of these
(`call_failFast`). Only a load changes the registry, and one that fails leaves behind what the
declarations in front of the failure amount to.
-/

namespace OperatorFold

open Reporting

/-- What a registry can be called for. -/
inductive Call where
  | load (items : List (Item Node))
  | compare (a b : Level)
  | foldSequence (elements : List Node)
  | foldTree (n : Node)

/-- The answer to a call. A load only changes the registry. -/
inductive Answer where
  | loaded
  | order (o : Order)
  | expression (n : Node)
  | tree (s : Substitute)

/-- The sequences that a call is to fold are well formed. -/
def Call.WellFormed : Call → Prop
  | load _ | compare .. => True
  | foldSequence elements => Node.sequenceFault elements = none ∧ .bare ∉ elements
  | foldTree n => n.WellFormed

namespace Registry

/-- Asks a registry for something and leaves it as it is. -/
def ask {α : Type} (r : Registry) (answer : α → Answer) (x : Reporting α) :
    Reporting (Registry × Except Halt Answer) := do
  let result ← x.attempt
  pure (r, result.map answer)

/-- Makes a call: the registry that it leaves behind, and the answer or why there is none. -/
def call (r : Registry) : Call → Reporting (Registry × Except Halt Answer)
  | .load items => do
    let loaded ← r.load items
    match loaded.ended with
    | none => pure (loaded.registry, .ok .loaded)
    | some halt => pure (loaded.registry, .error halt)
  | .compare a b => r.ask .order (r.compare a b)
  | .foldSequence elements => r.ask .expression (r.foldSequence elements)
  | .foldTree n => r.ask .tree (r.foldTree n)

variable {r : Registry} {items before rest : List (Item Node)} {e : PrecedenceError}
  {es : List PrecedenceError}

/-! ## Questions -/

section Ask

variable {α : Type} {x : Reporting α} {a : α}

/-- A question that is asked to the end has an answer. -/
theorem ask_collect (answer : α → Answer) (h : Yields x a es) :
    (r.ask answer x).collect = .ok ⟨(r, .ok (answer a)), es⟩ := by
  obtain ⟨j, hrun, hj⟩ := h.apply (Limit.allows_none _)
  have hask : r.ask answer x none {} = (.ok (r, .ok (answer a)), j) := by
    rw [ask, bind_apply, attempt, hrun]
    rfl
  rw [collect_of_apply hask, hj]
  rfl

/-- A question that is asked up to the first error has its answer, or ends with that error. -/
theorem ask_failFast (answer : α → Answer) (h : Yields x a es) :
    (r.ask answer x).failFast =
      .ok (r, (Outcome.mk (answer a) es).unwrap.mapError .rejected) := by
  have hask : (r.ask answer x).failFast = .ok (r, x.failFast.map answer) := by
    rw [failFast, failFast, run, run, ask, bind_apply, attempt]
    rfl
  rw [hask, h.failFast]
  cases es with
  | nil => rfl
  | cons e rest => rfl

end Ask

/-- Every call but a load asks for something that comes to a value. -/
theorem exists_ask (r : Registry) {c : Call} (h : c.WellFormed) (hload : ∀ items, c ≠ .load items) :
    ∃ (α : Type) (answer : α → Answer) (x : Reporting α) (a : α) (es : List PrecedenceError),
      r.call c = r.ask answer x ∧ Yields x a es := by
  cases c with
  | load items => exact absurd rfl (hload items)
  | compare a b => exact ⟨Order, .order, _, _, _, rfl, r.yields_compare a b⟩
  | foldSequence elements =>
    obtain ⟨hseq, hbare⟩ := h
    obtain ⟨t, es, -, -, hyields, -⟩ := r.exists_yields_foldSequence hseq hbare
    exact ⟨Node, .expression, _, _, es, rfl, hyields⟩
  | foldTree n =>
    obtain ⟨m, es, hfolds, -⟩ := r.exists_folds h
    exact ⟨Substitute, .tree, _, _, es, rfl, hfolds.yields_foldTree⟩

/-! ## Loads -/

/-- A load that is made to the end records all items and reports the duplicates among them. -/
theorem call_load_collect (r : Registry) (items : List (Item Node)) :
    (r.call (.load items)).collect =
      .ok ⟨(items.foldl recordItem r, .ok .loaded), r.loadErrors items⟩ := by
  obtain ⟨j, hrun, hj⟩ := load_apply (j := {}) items (Limit.allows_none _)
  have hcall : r.call (.load items) none {} = (.ok (items.foldl recordItem r, .ok .loaded), j) := by
    rw [call, bind_apply_ok hrun]
    rfl
  rw [collect_of_apply hcall, hj]
  rfl

/-- Without duplicates a load that may fail is the same. -/
theorem call_load_failFast (h : r.loadErrors items = []) :
    (r.call (.load items)).failFast = .ok (items.foldl recordItem r, .ok .loaded) := by
  have hnone : ({} : Journal).errors.length + (r.loadErrors items).length < 1 := by
    rw [h]
    exact Nat.one_pos
  obtain ⟨j, hrun, -⟩ := load_apply items (Limit.allows_some.mpr hnone)
  rw [failFast, run, call, bind_apply_ok hrun]
  rfl

/-- It fails at the first duplicate. -/
theorem call_load_failFast_duplicate {item : Item Node} (hbefore : r.loadErrors before = [])
    (hdup : (before.foldl recordItem r).duplicate item = some e) :
    (r.call (.load (before ++ item :: rest))).failFast =
      .ok (before.foldl recordItem r, .error (.rejected e)) := by
  have hone : 1 = ({} : Journal).errors.length + (r.loadErrors before).length + 1 := by
    rw [hbefore]
    rfl
  obtain ⟨j, hrun, -⟩ := load_apply_ended hdup hone
  rw [failFast, run, call, bind_apply_ok hrun]
  rfl

/-- It leaves behind what loading the declarations in front of the duplicate does. -/
theorem exists_call_load_failFast (h : r.loadErrors items = e :: es) :
    ∃ before d rest, items = before ++ .declaration d :: rest ∧
      (r.call (.load items)).failFast =
        .ok (before.foldl recordItem r, .error (.rejected e)) ∧
      (r.call (.load before)).collect = .ok ⟨(before.foldl recordItem r, .ok .loaded), []⟩ ∧
      (r.call (.load (before ++ [.declaration d]))).collect =
        .ok ⟨(before.foldl recordItem r, .ok .loaded), [e]⟩ := by
  obtain ⟨before, item, rest, rfl, hbefore, hdup⟩ := exists_of_loadErrors_cons h
  obtain ⟨d, rfl⟩ := exists_declaration_of_duplicate hdup
  refine ⟨before, d, rest, rfl, call_load_failFast_duplicate hbefore hdup, ?_, ?_⟩
  · rw [call_load_collect, hbefore]
  · rw [call_load_collect, loadErrors_append, hbefore, loadErrors, hdup, List.foldl_append,
      List.foldl_cons, recordItem_of_duplicate hdup]
    rfl

/-! ## Both ways agree -/

/-- **To fail at the first error and to collect all errors agree.** A call to the end has an answer,
whatever it collects. Made to fail at the first error, it comes to what the outcome of the other is
unwrapped to: to the same answer if there was no error, and else to the first of them. A load that
fails does so at a declaration, and leaves behind what loading the declarations in front of it
does; every other call leaves the registry as it is. -/
theorem call_failFast (r : Registry) {c : Call} (h : c.WellFormed) :
    ∃ after answer es left,
      (r.call c).collect = .ok ⟨(after, .ok answer), es⟩ ∧
      (r.call c).failFast = .ok (left, (Outcome.mk answer es).unwrap.mapError .rejected) ∧
      (es = [] → left = after) ∧
      ((∀ items, c ≠ .load items) → after = r ∧ left = r) ∧
      ∀ items e others, c = .load items → es = e :: others →
        ∃ before d rest, items = before ++ .declaration d :: rest ∧
          (r.call (.load before)).collect = .ok ⟨(left, .ok .loaded), []⟩ ∧
          (r.call (.load (before ++ [.declaration d]))).collect =
            .ok ⟨(left, .ok .loaded), [e]⟩ := by
  -- only a load changes the registry, and only a load may leave two different ones
  by_cases hload : ∃ items, c = .load items
  · obtain ⟨items, rfl⟩ := hload
    have hcollect := r.call_load_collect items
    -- without a duplicate both calls make the load to its end
    cases herrors : r.loadErrors items with
    | nil =>
      rw [herrors] at hcollect
      refine ⟨_, .loaded, [], _, hcollect, call_load_failFast herrors, fun _ => rfl, ?_, ?_⟩
      · intro hother
        exact absurd rfl (hother items)
      · intro _ _ _ _ hes
        cases hes
    | cons e others =>
      obtain ⟨before, d, rest, hitems, hfail, hprefix, hfirst⟩ := exists_call_load_failFast herrors
      rw [herrors] at hcollect
      refine ⟨_, .loaded, e :: others, _, hcollect, hfail, ?_, ?_, ?_⟩
      · intro hes
        cases hes
      · intro hother
        exact absurd rfl (hother items)
      · intro items e' others' hload hes
        cases hload
        cases hes
        exact ⟨before, d, rest, hitems, hprefix, hfirst⟩
  · have hother : ∀ items, c ≠ .load items := fun items heq => hload ⟨items, heq⟩
    -- every other call asks the registry and leaves it as it is
    obtain ⟨α, answer, x, a, es, hcall, hyields⟩ := r.exists_ask h hother
    rw [hcall]
    refine ⟨r, answer a, es, r, ask_collect answer hyields, ask_failFast answer hyields,
      fun _ => rfl, fun _ => ⟨rfl, rfl⟩, ?_⟩
    intro items _ _ heq
    exact absurd heq (hother items)

/-- A group that is already declared in the registry `unrelated`. -/
def takenGroup : PrecedenceGroup := .declare "low" .none [] [] false .unknown

/-- A declaration of `?`, one of the taken group, and one of `!`. -/
def takenItems : List (Item Node) :=
  [.declaration (.operator { name := "?" }), .declaration (.group takenGroup),
    .declaration (.operator { name := "!" })]

/-- The load fails at the taken group, and the fold of a chain at its first error. -/
theorem call_failFast_takenItems :
    (Call.load takenItems).WellFormed ∧
      (∃ left before d rest,
        (unrelated.call (.load takenItems)).failFast =
          .ok (left, .error (.rejected (.groupAlreadyExists takenGroup takenGroup))) ∧
        takenItems = before ++ .declaration d :: rest ∧
        (unrelated.call (.load before)).collect = .ok ⟨(left, .ok .loaded), []⟩) ∧
      (Call.foldSequence unrelatedChain).WellFormed ∧
      (unrelated.call (.foldSequence unrelatedChain)).failFast =
        .ok (unrelated, .error (.rejected
          (.incomparableOperators ⟨"*", .unknown⟩ "high" ⟨"~", .unknown⟩ "apart"))) := by
  -- the first call is a load that clashes, the second a fold of two unrelated operators
  have hchain : (Call.foldSequence unrelatedChain).WellFormed :=
    ⟨by decide, by simp [unrelatedChain]⟩
  refine ⟨trivial, ?_, hchain, ?_⟩
  · obtain ⟨after, answer, es, left, hcollect, hfail, -, -, hbefore⟩ :=
      call_failFast unrelated (c := .load takenItems) trivial
    have herrors : (unrelated.call (.load takenItems)).errors = es := errors_of_collect hcollect
    have hes : es = [.groupAlreadyExists takenGroup takenGroup] := by
      rw [← herrors]
      decide +kernel
    obtain ⟨before, d, rest, hitems, hprefix, -⟩ := hbefore takenItems _ _ rfl hes
    rw [hes] at hfail
    exact ⟨left, before, d, rest, hfail, hitems, hprefix⟩
  · obtain ⟨after, answer, es, left, hcollect, hfail, -, hkept, -⟩ := call_failFast unrelated hchain
    have herrors : (unrelated.call (.foldSequence unrelatedChain)).errors = es :=
      errors_of_collect hcollect
    have hes : es = unrelatedPairs := by
      rw [← herrors]
      decide +kernel
    have hleft : left = unrelated := by
      refine (hkept ?_).2
      intro items hload
      cases hload
    rw [hes, hleft] at hfail
    exact hfail

end Registry

end OperatorFold
