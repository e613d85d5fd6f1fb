import Mathlib.Logic.Relation
import OperatorFold.Proofs.Fold.Sequence

/-! # The scan of a sequence, step by step

A scan goes on in steps: it reads an operator with the operand behind it, lets a waiting operator
take its operands, or pushes what it has read. Between two steps there is one more operand on the
stacks than operators wait, and none of the operands is bare (`ScanState.Sound`). So wherever an
operator takes its operands there are two of them, and the left one has a span. No step is ever
stuck (`Sound.progress`), a single operand is left at the end, and from every state on the scan
comes to it (`Sound.exists_yields`).
-/

namespace OperatorFold

open Reporting

/-! ## Steps -/

/-- Where a scan has got to: the operator that it has read with the operand behind it, until they
are pushed, what is still to be read, and the two stacks. -/
structure ScanState where
  incoming : Option (Pending × Node) := none
  unread : List Node
  pending : List Pending := []
  operands : List Node

namespace ScanState

/-- The first operand is pushed without a comparison. -/
def start (first : Node) (rest : List Node) : ScanState := { unread := rest, operands := [first] }

/-- Nothing is left to do. -/
def Over (s : ScanState) : Prop := s.incoming = none ∧ s.unread = [] ∧ s.pending = []

/-- The part of a scan that is still to come. -/
def resume (r : Registry) (s : ScanState) : Reporting (List Node) :=
  match s.incoming with
  | none => r.scan s.unread s.pending s.operands
  | some (incoming, operand) => do
    let (pending, operands) ← r.settle incoming s.pending s.operands
    r.scan s.unread (incoming :: pending) (operand :: operands)

/-- A bound on the steps that are still to come. -/
def weight (s : ScanState) : Nat :=
  2 * s.unread.length + 2 * s.incoming.toList.length + s.pending.length

end ScanState

namespace Registry

/-- One step of a scan. There is none where one of its parts would fail. -/
inductive ScanStep (r : Registry) : ScanState → ScanState → Prop
  | read {use : OperatorUse} {level : Level} {es : List PrecedenceError} {operand : Node}
      {rest operands : List Node} {pending : List Pending} (h : Yields (r.levelOf use) level es) :
      ScanStep r ⟨none, .operator use :: operand :: rest, pending, operands⟩
        ⟨some (⟨use, level⟩, operand), rest, pending, operands⟩
  | combine {incoming top : Pending} {es : List PrecedenceError} {operand : Node}
      {rest operands operands' : List Node} {pending : List Pending}
      (hasked : Yields (r.shouldCombine top incoming) true es)
      (h : top.combine operands = .ok operands') :
      ScanStep r ⟨some (incoming, operand), rest, top :: pending, operands⟩
        ⟨some (incoming, operand), rest, pending, operands'⟩
  | push {incoming : Pending} {operand : Node} {rest operands : List Node} {pending : List Pending}
      (h : ∀ top below, pending = top :: below → ∃ es,
        Yields (r.shouldCombine top incoming) false es) :
      ScanStep r ⟨some (incoming, operand), rest, pending, operands⟩
        ⟨none, rest, incoming :: pending, operand :: operands⟩
  | drain {top : Pending} {operands operands' : List Node} {pending : List Pending}
      (h : top.combine operands = .ok operands') :
      ScanStep r ⟨none, [], top :: pending, operands⟩ ⟨none, [], pending, operands'⟩

end Registry

section Steps

variable {r : Registry} {s t : ScanState} {result : List Node} {es : List PrecedenceError}

/-- An operator that has been read is compared with the one that waits on top. -/
theorem ScanState.resume_cons (incoming top : Pending) (operand : Node) (rest : List Node)
    (pending : List Pending) (operands : List Node) :
    ScanState.resume r ⟨some (incoming, operand), rest, top :: pending, operands⟩ = (do
      if ← r.shouldCombine top incoming then
        let operands ← ofExcept (top.combine operands)
        ScanState.resume r ⟨some (incoming, operand), rest, pending, operands⟩
      else r.scan rest (incoming :: top :: pending) (operand :: operands)) := by
  show (do
    let (pending, operands) ← r.settle incoming (top :: pending) operands
    r.scan rest (incoming :: pending) (operand :: operands)) = _
  rw [Registry.settle, bind_assoc]
  congr 1
  funext asked
  cases asked with
  | false => rfl
  | true => exact bind_assoc ..

/-- What a scan comes to after a step, it comes to before. -/
theorem Registry.ScanStep.yields (h : r.ScanStep s t) (ht : Yields (t.resume r) result es) :
    ∃ es', Yields (s.resume r) result (es' ++ es) := by
  cases h with
  | read hlevel => exact ⟨_, hlevel.bind ht⟩
  | combine hasked hcombine =>
    rw [ScanState.resume_cons]
    refine ⟨_, hasked.bind ?_⟩
    exact (yields_ofExcept hcombine).bind ht
  | @push incoming operand rest operands pending hwaits =>
    cases pending with
    | nil => exact ⟨[], ht⟩
    | cons top below =>
      obtain ⟨es', hasked⟩ := hwaits top below rfl
      rw [ScanState.resume_cons]
      exact ⟨es', hasked.bind ht⟩
  | drain hcombine => exact ⟨[], (yields_ofExcept hcombine).bind ht⟩

/-- Every step leaves less to do. -/
theorem Registry.ScanStep.weight_lt (h : r.ScanStep s t) : t.weight < s.weight := by
  cases h <;>
    simp only [ScanState.weight, Option.toList, List.length_cons, List.length_nil] <;> omega

end Steps

/-! ## Taking operands -/

section Combine

variable {top : Pending} {operands operands' : List Node}

/-- Two operands are enough for an operator, if none is bare. -/
theorem Pending.exists_combine (top : Pending) (hlength : 2 ≤ operands.length)
    (hbare : .bare ∉ operands) : ∃ operands', top.combine operands = .ok operands' := by
  match operands, hlength with
  | right :: left :: rest, _ =>
    have hspan : ∃ span, left.span? = some span := by
      cases left with
      | bare => exact absurd (by simp) hbare
      | _ => exact ⟨_, rfl⟩
    obtain ⟨span, hspan⟩ := hspan
    exact ⟨_, by rw [Pending.combine, hspan]⟩

/-- An operator leaves one operand in the place of two. -/
theorem Pending.of_combine_eq_ok (h : top.combine operands = .ok operands') :
    ∃ right left rest span, operands = right :: left :: rest ∧
      operands' = .binary left (.operator top.use) right span :: rest := by
  unfold Pending.combine at h
  split at h
  · next right left rest =>
    split at h
    · next span _ =>
      cases h
      exact ⟨right, left, rest, span, rfl, rfl⟩
    · cases h
  · cases h

/-- Every step keeps one more operand on the stacks than operators wait. -/
theorem Registry.ScanStep.balanced {r : Registry} {s t : ScanState} (h : r.ScanStep s t)
    (hs : s.operands.length = s.pending.length + 1) :
    t.operands.length = t.pending.length + 1 := by
  cases h with
  | read => exact hs
  | push => exact congrArg (· + 1) hs
  | combine _ hcombine | drain hcombine =>
    obtain ⟨right, left, rest, span, rfl, rfl⟩ := Pending.of_combine_eq_ok hcombine
    simpa using hs

end Combine

/-! ## The invariant -/

namespace ScanState

/-- Between two steps there is one more operand than operators wait, and none is bare. -/
structure Sound (r : Registry) (s : ScanState) : Prop where
  balanced : s.operands.length = s.pending.length + 1
  not_bare : .bare ∉ s.operands
  /-- What waits has been read at the level of its operator. -/
  waiting : ∀ p ∈ s.pending, ∃ use, p = r.pending use
  incoming : ∀ p n, s.incoming = some (p, n) → (∃ use, p = r.pending use) ∧ n ≠ .bare
  unread : ∃ rest, s.unread = Node.spell rest ∧ ∀ entry ∈ rest, entry.2 ≠ .bare

variable {r : Registry} {s t : ScanState}

/-- A scan of well placed elements without a bare one starts soundly. -/
theorem sound_start {first : Node} {rest : List Node}
    (hseq : Node.sequenceFault (first :: rest) = none) (hbare : .bare ∉ first :: rest) :
    (start first rest).Sound r := by
  -- the elements are a first operand and operators with one operand each
  obtain ⟨first', entries, heq⟩ := Node.exists_spell hseq
  injection heq with _ hrest
  have hfirst : .bare ∉ [first] := by
    intro h
    rw [List.mem_singleton.mp h] at hbare
    exact hbare List.mem_cons_self
  refine ⟨rfl, hfirst, ?_, ?_, entries, hrest, ?_⟩
  · intro p hp
    cases hp
  · intro p n heq
    cases heq
  · intro entry hentry heq
    rw [hrest, ← heq] at hbare
    exact hbare (Node.mem_cons_spell.mpr
      (.inl (List.mem_cons_of_mem _ (List.mem_map_of_mem hentry))))

/-- An operator that takes its operands leaves one that is not bare either. -/
theorem not_bare_combine {top : Pending} {operands operands' : List Node}
    (h : top.combine operands = .ok operands') (hbare : .bare ∉ operands) :
    .bare ∉ operands' := by
  obtain ⟨right, left, rest, span, rfl, rfl⟩ := Pending.of_combine_eq_ok h
  simp only [List.mem_cons, not_or] at hbare
  rw [List.mem_cons, not_or]
  exact ⟨nofun, hbare.2.2⟩

/-- Every step keeps the invariant. -/
theorem Sound.step (h : s.Sound r) (hstep : r.ScanStep s t) : t.Sound r := by
  have hbalanced := hstep.balanced h.balanced
  obtain ⟨-, hbare, hwaiting, hincoming, rest, hunread, hrest⟩ := h
  -- the fields that a step leaves alone stay as they are; only what it moves is shown again
  cases hstep with
  | @read use level es operand tail operands pending hlevel =>
    cases rest with
    | nil => cases hunread
    | cons entry rest =>
      cases hunread
      refine ⟨hbalanced, hbare, hwaiting, ?_, rest, rfl, fun e he => hrest e (.tail _ he)⟩
      rintro p n heq
      cases heq
      exact ⟨⟨_, r.eq_pending hlevel⟩, hrest entry (.head _)⟩
  | combine hasked hcombine =>
    exact ⟨hbalanced, not_bare_combine hcombine hbare, fun p hp => hwaiting p (.tail _ hp),
      hincoming, rest, hunread, hrest⟩
  | push hwaits =>
    obtain ⟨huse, hoperand⟩ := hincoming _ _ rfl
    refine ⟨hbalanced, ?_, ?_, ?_, rest, hunread, hrest⟩
    · rw [List.mem_cons, not_or]
      exact ⟨hoperand.symm, hbare⟩
    · intro p hp
      rcases List.mem_cons.mp hp with rfl | hp
      · exact huse
      · exact hwaiting p hp
    · intro p n heq
      cases heq
  | drain hcombine =>
    exact ⟨hbalanced, not_bare_combine hcombine hbare, fun p hp => hwaiting p (.tail _ hp),
      hincoming, rest, hunread, hrest⟩

/-- A scan that is not over goes on. -/
theorem Sound.progress (h : s.Sound r) : s.Over ∨ ∃ t, r.ScanStep s t := by
  obtain ⟨incoming, unread, pending, operands⟩ := s
  obtain ⟨hbalanced, hbare, hwaiting, hincoming, rest, hunread, hrest⟩ := h
  -- there is one operand more than operators waiting, so the one on top finds two of them
  have hcombine : ∀ top below, pending = top :: below →
      ∃ operands', top.combine operands = .ok operands' := by
    rintro top below rfl
    have hlength : operands.length = below.length + 1 + 1 := hbalanced
    exact top.exists_combine (by omega) hbare
  cases incoming with
  | none =>
    cases rest with
    | nil =>
      cases hunread
      cases pending with
      | nil => exact .inl ⟨rfl, rfl, rfl⟩
      | cons top below =>
        obtain ⟨operands', htaken⟩ := hcombine top below rfl
        exact .inr ⟨_, .drain htaken⟩
    | cons entry rest =>
      cases hunread
      exact .inr ⟨_, .read (r.yields_levelOf entry.1)⟩
  | some read =>
    obtain ⟨p, n⟩ := read
    -- an operator has come in: it is pushed onto an empty stack, and else it depends on the one on
    -- top
    obtain ⟨⟨o, rfl⟩, -⟩ := hincoming p n rfl
    cases pending with
    | nil =>
      refine .inr ⟨_, .push ?_⟩
      intro top below heq
      cases heq
    | cons top below =>
      obtain ⟨w, rfl⟩ := hwaiting top (.head _)
      have hasked := r.yields_shouldCombine w o
      cases hc : r.combines w o with
      | true =>
        obtain ⟨operands', htaken⟩ := hcombine _ below rfl
        exact .inr ⟨_, .combine (hc ▸ hasked) htaken⟩
      | false =>
        refine .inr ⟨_, .push ?_⟩
        intro top below heq
        injection heq with htop
        exact ⟨_, htop ▸ hc ▸ hasked⟩

/-- At the end a single operand is left. -/
theorem Sound.exists_operand (h : s.Sound r) (hover : s.Over) :
    ∃ result, s.operands = [result] := by
  have hlength := h.balanced
  rw [hover.2.2] at hlength
  exact List.length_eq_one_iff.mp hlength

/-- From every state on a scan comes to its end. -/
theorem Sound.exists_yields (h : s.Sound r) : ∃ result es, Yields (s.resume r) [result] es := by
  induction hweight : s.weight using Nat.strongRecOn generalizing s with
  | _ count ih =>
    rcases h.progress with hover | ⟨t, hstep⟩
    · obtain ⟨result, hoperands⟩ := h.exists_operand hover
      obtain ⟨hincoming, hunread, hpending⟩ := hover
      refine ⟨result, [], ?_⟩
      rw [resume, hincoming, hunread, hpending, hoperands]
      exact yields_pure _
    · obtain ⟨result, es, ht⟩ := ih t.weight (hweight ▸ hstep.weight_lt) (h.step hstep) rfl
      obtain ⟨es', hs⟩ := hstep.yields ht
      exact ⟨result, _, hs⟩

/-- Nothing fails from a state of a scan on: an operator that waits finds its operands, some step is
next until the scan is over, and then a single operand is left. -/
structure Safe (r : Registry) (s : ScanState) : Prop where
  balanced : s.operands.length = s.pending.length + 1
  goes_on : s.Over ∨ ∃ t, r.ScanStep s t
  single : s.Over → ∃ result, s.operands = [result]
  comes_to : ∃ result es, Yields (s.resume r) [result] es

theorem Sound.safe (h : s.Sound r) : s.Safe r :=
  ⟨h.balanced, h.progress, h.exists_operand, h.exists_yields⟩

/-- **No step of the scan of a sequence fails.** -/
theorem safe_of_reachable {first : Node} {rest : List Node}
    (hseq : Node.sequenceFault (first :: rest) = none) (hbare : .bare ∉ first :: rest)
    (h : Relation.ReflTransGen r.ScanStep (start first rest) s) : s.Safe r := by
  have hsound : s.Sound r := by
    induction h with
    | refl => exact sound_start hseq hbare
    | tail _ hstep ih => exact ih.step hstep
  exact hsound.safe

end ScanState

end OperatorFold
