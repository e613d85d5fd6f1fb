import Mathlib.Data.List.Chain
import OperatorFold.Proofs.Fold.Canonical
import OperatorFold.Proofs.Fold.ScanSteps

/-! # The stack of waiting operators

Whatever errors a scan reports, the operators that wait keep the order in which they were read, and
each of them outranks the one below: its level is higher, or both are equal in a group that
associates to the right. Errors do not break this. An operator without an order to the one on top
takes that one off the stack, and the next one is compared in its turn, so nothing is ever pushed
onto an operator that it was not compared with.

What is compared are neighbours only. Where no two groups are each higher than the other, the order
is transitive enough to carry the answer to all pairs on the stack.
-/

namespace OperatorFold

open Reporting

/-! ## Outranking -/

/-- A relation that is transitive among the members of a chain holds of all its pairs. -/
private theorem pairwise_of_isChain {α : Type} {R : α → α → Prop} {l : List α}
    (htrans : ∀ a ∈ l, ∀ b ∈ l, ∀ c ∈ l, R a b → R b c → R a c) (h : l.IsChain R) :
    l.Pairwise R := by
  induction l with
  | nil => exact .nil
  | cons a l ih =>
    have hl : l.Pairwise R :=
      ih (fun b hb c hc d hd => htrans b (.tail _ hb) c (.tail _ hc) d (.tail _ hd)) h.tail
    cases l with
    | nil => exact List.pairwise_singleton R a
    | cons b l =>
      -- `a` stands over `b`, and `b` over all that is left
      have hab : R a b := (List.isChain_cons_cons.mp h).1
      refine .cons (fun c hc => ?_) hl
      rcases List.mem_cons.mp hc with rfl | hc'
      · exact hab
      · have hbc : R b c := List.rel_of_pairwise_cons hl hc'
        exact htrans a (.head _) b (.tail _ (.head _)) c (.tail _ hc) hab hbc

namespace Registry

/-- An operator may wait on top of another one: its level is higher, or both are equal in a group
that associates to the right. -/
def Outranks (r : Registry) (upper lower : Pending) : Prop :=
  r.order upper.level lower.level = .higher ∨
    r.order upper.level lower.level = .equal ∧ upper.level.associativity = .right

variable {r : Registry} {p o : OperatorUse}

/-- An operator that leaves another one waiting outranks it. -/
theorem outranks_of_waits (h : r.combines p o = false) :
    r.Outranks (r.pending o) (r.pending p) := by
  rw [combines_eq] at h
  unfold Outranks
  simp only [pending]
  cases horder : r.order (r.level o) (r.level p) with
  | higher => exact .inl rfl
  | lower => rw [horder] at h; cases h
  | equal =>
    rw [horder] at h
    have hright : ¬(r.level o).associativity ≠ .right := of_decide_eq_false h
    exact .inr ⟨rfl, not_not.mp hright⟩
  | unordered => rw [horder] at h; cases h

/-- What outranks an operator is what fits on its right. -/
theorem Consistent.outranks_iff (hr : r.Consistent) :
    r.Outranks (r.pending o) (r.pending p) ↔ r.Fits .right o p := by
  have hequal := hr.order_eq_equal_iff (r.registered_level o) (r.registered_level p)
  unfold Outranks Fits
  simp only [pending]
  rw [hequal]
  refine or_congr_right (and_congr_right fun hlevel => ?_)
  rw [hlevel]

end Registry

/-! ## What a step does to the operators that are held -/

namespace ScanState

/-- The operators that have been read and have not taken their operands, in the order of the
text. -/
def held (s : ScanState) : List Pending :=
  s.pending.reverse ++ s.incoming.toList.map Prod.fst

end ScanState

section Steps

variable {r : Registry} {s t : ScanState}

/-- A step reads one more operator, at its level, or reads nothing and keeps the operators that it
still holds in their order. -/
theorem Registry.ScanStep.held (h : r.ScanStep s t) :
    (∃ use operand, s.unread = .operator use :: operand :: t.unread ∧
      t.held = s.held ++ [r.pending use]) ∨
    (t.unread = s.unread ∧ t.held.Sublist s.held) := by
  -- only to read an operator adds to what is held, and only to combine takes away from it
  cases h with
  | @read use level es operand rest operands pending hlevel =>
    refine .inl ⟨use, operand, rfl, ?_⟩
    simp [ScanState.held, r.eq_pending hlevel]
  | combine =>
    refine .inr ⟨rfl, ?_⟩
    simp only [ScanState.held, List.reverse_cons]
    exact (List.sublist_append_left _ _).append_right _
  | push =>
    refine .inr ⟨rfl, ?_⟩
    simp [ScanState.held]
  | drain =>
    refine .inr ⟨rfl, ?_⟩
    simp [ScanState.held]

/-- On its way a scan comes through the states that its steps lead to. -/
theorem Registry.ScanStep.comesTo (h : r.ScanStep s t) :
    ∃ es, ComesTo (s.resume r) (t.resume r) es := by
  cases h with
  | read hlevel => exact ⟨_, hlevel.comesTo _⟩
  | combine hasked hcombine =>
    rw [ScanState.resume_cons]
    exact ⟨_, (hasked.comesTo _).trans ((yields_ofExcept hcombine).comesTo _)⟩
  | @push incoming operand rest operands pending hwaits =>
    cases pending with
    | nil => exact ⟨[], .refl _⟩
    | cons top below =>
      obtain ⟨es, hasked⟩ := hwaits top below rfl
      rw [ScanState.resume_cons]
      exact ⟨es, hasked.comesTo _⟩
  | drain hcombine => exact ⟨_, (yields_ofExcept hcombine).comesTo _⟩

end Steps

/-! ## The invariant -/

namespace ScanState

/-- What holds of the two stacks between two steps of the scan of a first operand and `rest`. -/
structure Stacked (r : Registry) (rest : List Node) (s : ScanState) : Prop where
  balanced : s.operands.length = s.pending.length + 1
  /-- Operators are held in the order in which they were read. -/
  in_order : ∃ read : List (OperatorUse × Node), rest = Node.spell read ++ s.unread ∧
    (s.held.map Pending.use).Sublist (read.map Prod.fst)
  /-- What is held is held at the level of its operator. -/
  leveled : ∀ p ∈ s.held, p = r.pending p.use
  ascending : s.pending.IsChain r.Outranks

variable {r : Registry} {first : Node} {rest : List Node} {s t : ScanState}

/-- At the start, nothing is on the stack. -/
theorem stacked_start (r : Registry) (first : Node) (rest : List Node) :
    (start first rest).Stacked r rest where
  balanced := rfl
  in_order := ⟨[], rfl, .slnil⟩
  leveled p hp := by cases hp
  ascending := .nil

/-- Two operators are compared at the levels at which they have been read. -/
theorem Stacked.exists_uses {incoming top : Pending} {operand : Node} {unread operands : List Node}
    {below : List Pending}
    (h : Stacked r rest ⟨some (incoming, operand), unread, top :: below, operands⟩) :
    ∃ p o, top = r.pending p ∧ incoming = r.pending o :=
  ⟨_, _, h.leveled top (by simp [held]), h.leveled incoming (by simp [held])⟩

/-- An operator is pushed only onto one that it outranks. -/
theorem Stacked.isChain_push {incoming : Pending} {operand : Node} {unread operands : List Node}
    {pending : List Pending}
    (h : Stacked r rest ⟨some (incoming, operand), unread, pending, operands⟩)
    (hwaits : ∀ top below, pending = top :: below → ∃ es,
      Yields (r.shouldCombine top incoming) false es) :
    (incoming :: pending).IsChain r.Outranks := by
  cases pending with
  | nil => exact .singleton _
  | cons top below =>
    obtain ⟨p, o, rfl, rfl⟩ := h.exists_uses
    obtain ⟨es, hasked⟩ := hwaits _ below rfl
    have hcombines : r.combines p o = false := hasked.value_eq
    exact List.isChain_cons_cons.mpr ⟨Registry.outranks_of_waits hcombines, h.ascending⟩

/-- Every step keeps the invariant, those that report errors too. -/
theorem Stacked.step (h : s.Stacked r rest) (hstep : r.ScanStep s t) : t.Stacked r rest := by
  have hbalanced := hstep.balanced h.balanced
  have hascending : t.pending.IsChain r.Outranks := by
    have hs := h.ascending
    cases hstep with
    | read => exact hs
    | combine => exact hs.tail
    | push hwaits => exact h.isChain_push hwaits
    | drain => exact hs.tail
  obtain ⟨read, hrest, hsub⟩ := h.in_order
  rcases hstep.held with ⟨use, operand, hunread, hheld⟩ | ⟨hunread, hheld⟩
  · -- the operator that is read comes behind all that have been read
    refine ⟨hbalanced, ⟨read ++ [(use, operand)], ?_, ?_⟩, ?_, hascending⟩
    · rw [hrest, hunread, Node.spell_append, List.append_assoc]
      rfl
    · rw [hheld, List.map_append, List.map_append]
      exact hsub.append_right _
    · intro p hp
      rw [hheld, List.mem_append, List.mem_singleton] at hp
      rcases hp with hp | rfl
      · exact h.leveled p hp
      · rfl
  · exact ⟨hbalanced, ⟨read, hunread ▸ hrest, (hheld.map _).trans hsub⟩,
      fun p hp => h.leveled p (hheld.subset hp), hascending⟩

/-- The stack keeps its shape in all that the scan reaches. -/
theorem stacked_of_run (h : Relation.ReflTransGen r.ScanStep (start first rest) s) :
    s.Stacked r rest := by
  induction h with
  | refl => exact stacked_start r first rest
  | tail _ hstep ih => exact ih.step hstep

/-- A step is next, or a fault ends the scan. -/
def GoesOn (r : Registry) (s : ScanState) : Prop :=
  (∃ t, r.ScanStep s t) ∨ ∃ fault es, Faults (s.resume r) fault es

/-- An operator takes its operands, or they make the scan fault. -/
theorem combine_cases (top : Pending) (operands : List Node) :
    (∃ operands', top.combine operands = .ok operands') ∨
      ∃ fault, ∀ f : List Node → Reporting (List Node),
        Faults (ofExcept (top.combine operands) >>= f) fault [] := by
  cases top.combine operands with
  | ok operands' => exact .inl ⟨operands', rfl⟩
  | error fault => exact .inr ⟨fault, fun f => (faults_halt fault).bind f⟩

/-- An operator is read with its operand, or there is none where it should stand. -/
theorem goesOn_of_unread {unread operands : List Node} {pending : List Pending}
    (hne : unread ≠ []) : GoesOn r ⟨none, unread, pending, operands⟩ := by
  by_cases hturn : ∃ use operand rest, unread = .operator use :: operand :: rest
  · obtain ⟨use, operand, rest, rfl⟩ := hturn
    exact .inl ⟨_, .read (r.yields_levelOf use)⟩
  · refine .inr ⟨.brokenAlternation, [], ?_⟩
    show Faults (r.scan unread pending operands) _ _
    unfold Registry.scan
    split
    · exact absurd rfl hne
    · exact absurd ⟨_, _, _, rfl⟩ hturn
    · exact faults_halt _

/-- A scan that is not over goes on. -/
theorem Stacked.over_or_goesOn (h : s.Stacked r rest) : s.Over ∨ GoesOn r s := by
  obtain ⟨incoming, unread, pending, operands⟩ := s
  -- nothing is left once no operator comes in, none is unread and none waits
  cases incoming with
  | none =>
    cases unread with
    | cons n unread => exact .inr (goesOn_of_unread (List.cons_ne_nil n unread))
    | nil =>
      cases pending with
      | nil => exact .inl ⟨rfl, rfl, rfl⟩
      | cons top below =>
        rcases combine_cases top operands with ⟨operands', htaken⟩ | ⟨fault, hfaults⟩
        · exact .inr (.inl ⟨_, .drain htaken⟩)
        · exact .inr (.inr ⟨fault, [], hfaults _⟩)
  | some read =>
    obtain ⟨incoming, operand⟩ := read
    cases pending with
    | nil =>
      refine .inr (.inl ⟨_, .push ?_⟩)
      intro top below heq
      cases heq
    | cons top below =>
      -- the incoming operator is compared with the one on top, and then combined or pushed
      obtain ⟨p, o, rfl, rfl⟩ := h.exists_uses
      have hasked := r.yields_shouldCombine p o
      cases hcombines : r.combines p o with
      | false =>
        rw [hcombines] at hasked
        refine .inr (.inl ⟨_, .push ?_⟩)
        intro top below' heq
        injection heq with heq
        exact ⟨_, heq ▸ hasked⟩
      | true =>
        rw [hcombines] at hasked
        rcases combine_cases (r.pending p) operands with ⟨operands', htaken⟩ | ⟨fault, hfaults⟩
        · exact .inr (.inl ⟨_, .combine hasked htaken⟩)
        · refine .inr (.inr ?_)
          rw [resume_cons]
          exact ⟨fault, _, hasked.bind_faults (hfaults _)⟩

/-- The operators that wait are some of those read so far, in their order. -/
theorem Stacked.waiting_sublist (h : s.Stacked r rest) :
    ∃ read : List (OperatorUse × Node), rest = Node.spell read ++ s.unread ∧
      (s.pending.reverse.map Pending.use).Sublist (read.map Prod.fst) := by
  obtain ⟨read, hrest, hsub⟩ := h.in_order
  exact ⟨read, hrest, ((List.sublist_append_left _ _).map _).trans hsub⟩

/-- Where no two groups are each higher than the other, every operator that waits outranks all those
below it. -/
theorem Stacked.pairwise (h : s.Stacked r rest) (hr : r.Consistent) {ops : List OperatorUse}
    (hanti : r.Antisymmetric ops) (hops : ∀ p ∈ s.pending, p.use ∈ ops) :
    s.pending.Pairwise r.Outranks := by
  have hleveled : ∀ p ∈ s.pending, p = r.pending p.use := fun p hp =>
    h.leveled p (List.mem_append_left _ (List.mem_reverse.mpr hp))
  have htrans : ∀ p ∈ s.pending, ∀ q ∈ s.pending, ∀ o ∈ s.pending,
      r.Outranks p q → r.Outranks q o → r.Outranks p o := by
    intro p hp q hq o ho
    rw [hleveled p hp, hleveled q hq, hleveled o ho, hr.outranks_iff, hr.outranks_iff,
      hr.outranks_iff]
    exact fun hpq hqo => hpq.trans hr hanti (hops p hp) (hops q hq) hqo
  exact pairwise_of_isChain htrans h.ascending

/-! ## The stacks along a scan -/

/-- On its way the scan of a sequence comes through the states that its steps lead to. -/
theorem comesTo_of_run (h : Relation.ReflTransGen r.ScanStep (start first rest) s) :
    ∃ es, ComesTo (r.scan rest [] [first]) (s.resume r) es := by
  induction h with
  | refl => exact ⟨[], .refl _⟩
  | tail _ hstep ih =>
    obtain ⟨es, hes⟩ := ih
    obtain ⟨es', hes'⟩ := hstep.comesTo
    exact ⟨es ++ es', hes.trans hes'⟩

/-- **The stack of waiting operators.** A scan comes through the states that its steps lead to, and
from each it goes on to a next one, unless it is over or a fault ends it. In every such state,
behind each reading, combination and push, there is one more operand on the stacks than operators
wait. The operators that wait are some of those read so far, in their order. Each of them outranks
the one below it, and all of those below it if no two operators of the sequence have levels that are
each higher than the other. -/
theorem stack_ascends (h : Relation.ReflTransGen r.ScanStep (start first rest) s) :
    (∃ es, ComesTo (r.scan rest [] [first]) (s.resume r) es) ∧
      (s.Over ∨ GoesOn r s) ∧
      s.operands.length = s.pending.length + 1 ∧
      (∃ read : List (OperatorUse × Node), rest = Node.spell read ++ s.unread ∧
        (s.pending.reverse.map Pending.use).Sublist (read.map Prod.fst)) ∧
      s.pending.IsChain r.Outranks ∧
      (r.Reachable →
        (∀ p q, .operator p ∈ first :: rest → .operator q ∈ first :: rest →
          ¬(r.order (r.level p) (r.level q) = .higher ∧
            r.order (r.level q) (r.level p) = .higher)) →
        s.pending.Pairwise r.Outranks) := by
  have hstacked := stacked_of_run h
  obtain ⟨read, hrest, hsub⟩ := hstacked.waiting_sublist
  refine ⟨comesTo_of_run h, hstacked.over_or_goesOn, hstacked.balanced, ⟨read, hrest, hsub⟩,
    hstacked.ascending, ?_⟩
  intro hr hanti
  -- all that has been read are operators of the sequence, where no two are higher both ways
  have hread : ∀ p ∈ read.map Prod.fst, .operator p ∈ first :: rest := by
    intro p hp
    obtain ⟨entry, hentry, rfl⟩ := List.mem_map.mp hp
    have hspell : .operator entry.1 ∈ first :: Node.spell read :=
      Node.mem_cons_spell.mpr (.inr ⟨entry, hentry, rfl⟩)
    rw [hrest, ← List.cons_append]
    exact List.mem_append_left _ hspell
  have hantisymmetric : r.Antisymmetric (read.map Prod.fst) := by
    intro p hp q hq hpq hqp
    exact hanti p q (hread p hp) (hread q hq) ⟨hpq, hqp⟩
  refine hstacked.pairwise hr.consistent hantisymmetric fun p hp => ?_
  exact hsub.subset (List.mem_map_of_mem (List.mem_reverse.mpr hp))

/-- What has been read is pushed onto an operator that does not combine before it. -/
theorem run_push {use : OperatorUse} {operand : Node} {unread operands : List Node}
    (uses : List OperatorUse)
    (h : Relation.ReflTransGen r.ScanStep s
      ⟨some (r.pending use, operand), unread, uses.map r.pending, operands⟩)
    (hwaits : ∀ p ∈ uses.head?, r.combines p use = false) :
    Relation.ReflTransGen r.ScanStep s
      ⟨none, unread, (use :: uses).map r.pending, operand :: operands⟩ := by
  refine h.tail (.push ?_)
  intro top below heq
  cases uses with
  | nil => cases heq
  | cons p uses =>
    injection heq with htop
    have hasked := r.yields_shouldCombine p use
    rw [hwaits p rfl] at hasked
    exact ⟨_, htop ▸ hasked⟩

/-- The elements of `a ? b == c == d ^ e ^ f` behind the first one, where `?` is not declared and
`==` does not associate. -/
def interruptedClimb : List Node :=
  Node.spell [(⟨"?", .unknown⟩, .name "b" .unknown), (⟨"==", .unknown⟩, .name "c" .unknown),
    (⟨"==", .unknown⟩, .name "d" .unknown), (⟨"^", .unknown⟩, .name "e" .unknown),
    (⟨"^", .unknown⟩, .name "f" .unknown)]

open Registry in
/-- The second `==` makes the first one take its operands, with an error, and then waits in its
place. All that waits before the scan is drained outranks what is below it. -/
theorem stack_ascends_interruptedClimb :
    chained.Reachable ∧
      ∃ s, Relation.ReflTransGen chained.ScanStep (start (.name "a" .unknown) interruptedClimb) s ∧
        s.pending.map (·.use.name) = ["^", "^", "==", "?"] ∧ s.operands.length = 5 ∧
        s.pending.Pairwise chained.Outranks := by
  have hr : chained.Reachable := Reachable.empty.record _
  have hconflict : chained.combines ⟨"==", .unknown⟩ ⟨"==", .unknown⟩ = true := by decide +kernel
  have hasked := hconflict ▸ chained.yields_shouldCombine ⟨"==", .unknown⟩ ⟨"==", .unknown⟩
  have hstart : Relation.ReflTransGen chained.ScanStep
      (start (.name "a" .unknown) interruptedClimb) _ := .refl
  have hpushed := run_push [] (hstart.tail (.read (chained.yields_levelOf _))) nofun
  have hpushed := run_push [⟨"?", .unknown⟩] (hpushed.tail (.read (chained.yields_levelOf _)))
    (by decide +kernel)
  have htaken := (hpushed.tail (.read (chained.yields_levelOf _))).tail (.combine hasked rfl)
  have hpushed := run_push [⟨"?", .unknown⟩] htaken (by decide +kernel)
  have hpushed := run_push [⟨"==", .unknown⟩, ⟨"?", .unknown⟩]
    (hpushed.tail (.read (chained.yields_levelOf _))) (by decide +kernel)
  have hpushed := run_push [⟨"^", .unknown⟩, ⟨"==", .unknown⟩, ⟨"?", .unknown⟩]
    (hpushed.tail (.read (chained.yields_levelOf _))) (by decide +kernel)
  have huses : ∀ p, .operator p ∈ .name "a" .unknown :: interruptedClimb → p ∈ mixedUses := by
    simp +contextual [interruptedClimb, Node.spell, mixedUses]
  have hanti : chained.Antisymmetric mixedUses := by
    unfold Antisymmetric
    decide +kernel
  obtain ⟨-, -, hbalanced, -, -, hpairs⟩ := stack_ascends hpushed
  refine ⟨hr, _, hpushed, rfl, hbalanced, hpairs hr fun p q hp hq h => ?_⟩
  exact hanti p (huses p hp) q (huses q hq) h.1 h.2

end ScanState

end OperatorFold
