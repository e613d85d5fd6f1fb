import OperatorFold.Proofs.Grouping.Basic

/-! # The scan that groups a sequence

The grouping algorithm on its own: a stack of operators that wait for their right operand, each with
its left part, and the part read last. `plug` closes all that waits, so a stack with a part on top
stands for one grouping of what has been read. Combining the top of the stack does not change that
grouping; only reading on does.

## Shape of the proof

`scan_settled` says that a scan over the sequence below a settled grouping rebuilds this grouping.
Hence a sequence has at most one settled grouping (`Settled.unique`). The scan itself finds one
(`settled_group`): the grouping that a stack stands for stays settled, because an incoming operator
`o` comes to stand over exactly the part whose right spine it was compared with, and under an
operator that kept waiting for it.
-/

namespace OperatorFold.Grouping

variable {α β γ : Type} {combines : β → β → Bool}

/-- Operators that wait for their right operand, each with its left part; the last one read is on
top. -/
abbrev Waiting (α β : Type) := List (Grouping α β × β)

/-- The grouping of a stack and the part above it. -/
def plug : Waiting α β → Grouping α β → Grouping α β
  | [], t => t
  | (left, op) :: below, t => plug below (operation left op t)

/-- Combines the top of the stack for as long as the incoming operator `o` asks for it. -/
def settle (combines : β → β → Bool) (o : β) :
    Waiting α β → Grouping α β → Waiting α β × Grouping α β
  | [], t => ([], t)
  | (left, p) :: below, t =>
    if combines p o then settle combines o below (operation left p t) else ((left, p) :: below, t)

/-- Reads operators, each with the operand behind it, and closes the stack at the end. -/
def scan (combines : β → β → Bool) : List (β × α) → Waiting α β → Grouping α β → Grouping α β
  | [], below, t => plug below t
  | (o, a) :: rest, below, t =>
    let settled := settle combines o below t
    scan combines rest ((settled.2, o) :: settled.1) (operand a)

/-- The grouping that the scan finds for a sequence. -/
def group (combines : β → β → Bool) (a : α) (rest : List (β × α)) : Grouping α β :=
  scan combines rest [] (operand a)

/-! ## Stacks -/

/-- A stack is plugged from the top, one part of it after the other. -/
theorem plug_append (above below : Waiting α β) (t : Grouping α β) :
    plug (above ++ below) t = plug below (plug above t) := by
  induction above generalizing t with
  | nil => rfl
  | cons entry above ih => exact ih _

/-- Combining does not change the grouping of a stack. -/
theorem plug_settle (o : β) (below : Waiting α β) (t : Grouping α β) :
    plug (settle combines o below t).1 (settle combines o below t).2 = plug below t := by
  induction below generalizing t with
  | nil => rfl
  | cons entry below ih =>
    obtain ⟨left, p⟩ := entry
    rw [settle]
    split
    · exact ih _
    · rfl

/-- What is left waiting has waited before. -/
theorem settle_suffix (o : β) (below : Waiting α β) (t : Grouping α β) :
    (settle combines o below t).1 <:+ below := by
  induction below generalizing t with
  | nil => exact List.suffix_refl _
  | cons entry below ih =>
    obtain ⟨left, p⟩ := entry
    rw [settle]
    split
    · exact (ih _).trans (List.suffix_cons _ _)
    · exact List.suffix_refl _

/-- The first operand of a stack's grouping does not depend on what is right of it. -/
theorem first_plug (below : Waiting α β) {t t' : Grouping α β} (h : t.first = t'.first) :
    (plug below t).first = (plug below t').first := by
  induction below generalizing t t' with
  | nil => exact h
  | cons entry below ih => exact ih rfl

/-- What a part on top of a stack has more at its end, the grouping of the stack has more at its
end. -/
theorem rest_plug (below : Waiting α β) {t t' : Grouping α β} (more : List (β × α))
    (hfirst : t'.first = t.first) (hrest : t'.rest = t.rest ++ more) :
    (plug below t').rest = (plug below t).rest ++ more := by
  induction below generalizing t t' with
  | nil => exact hrest
  | cons entry below ih =>
    refine ih rfl ?_
    rw [rest, rest, hrest, hfirst, List.append_assoc, List.cons_append]

/-- What a part on top of a stack has more in conflicts at its end, the grouping of the stack has
more at its end. -/
theorem conflicts_plug {conflicting : β → β → Bool} (below : Waiting α β) {t t' : Grouping α β}
    {more : List (β × β)} (h : t'.conflicts conflicting = t.conflicts conflicting ++ more) :
    (plug below t').conflicts conflicting = (plug below t).conflicts conflicting ++ more := by
  induction below generalizing t t' with
  | nil => exact h
  | cons entry below ih =>
    refine ih ?_
    simp only [conflicts, h, List.append_assoc]

/-! ## The scan keeps the sequence -/

/-- A scan keeps the first operand. -/
theorem scan_first (rest : List (β × α)) (below : Waiting α β) (t : Grouping α β) :
    (scan combines rest below t).first = (plug below t).first := by
  induction rest generalizing below t with
  | nil => rfl
  | cons entry rest ih =>
    obtain ⟨o, a⟩ := entry
    have hsettle : plug (settle combines o below t).1 (settle combines o below t).2 =
        plug below t := plug_settle o below t
    rw [scan, ih, plug, ← hsettle]
    exact first_plug _ rfl

/-- A scan keeps the operators and the operands behind them, in order. -/
theorem scan_rest (rest : List (β × α)) (below : Waiting α β) (t : Grouping α β) :
    (scan combines rest below t).rest = (plug below t).rest ++ rest := by
  induction rest generalizing below t with
  | nil => rw [scan, List.append_nil]
  | cons entry rest ih =>
    obtain ⟨o, a⟩ := entry
    have hpush : (plug (settle combines o below t).1
        (operation (settle combines o below t).2 o (operand a))).rest =
          (plug (settle combines o below t).1 (settle combines o below t).2).rest ++ [(o, a)] :=
      rest_plug _ [(o, a)] rfl rfl
    rw [scan, ih, plug, hpush, plug_settle, List.append_assoc, List.singleton_append]

theorem group_first (a : α) (rest : List (β × α)) : (group combines a rest).first = a :=
  scan_first rest [] (operand a)

theorem group_rest (a : α) (rest : List (β × α)) : (group combines a rest).rest = rest :=
  scan_rest rest [] (operand a)

/-! ## Reading on -/

/-- The stack and the part on top of it after reading some operators, each with the operand behind
it. -/
def advance (combines : β → β → Bool) :
    List (β × α) → Waiting α β → Grouping α β → Waiting α β × Grouping α β
  | [], below, t => (below, t)
  | (o, a) :: rest, below, t =>
    let settled := settle combines o below t
    advance combines rest ((settled.2, o) :: settled.1) (operand a)

/-- The scan goes on with what follows from where it has come to. -/
theorem scan_append (rest more : List (β × α)) (below : Waiting α β) (t : Grouping α β) :
    scan combines (rest ++ more) below t =
      scan combines more (advance combines rest below t).1 (advance combines rest below t).2 := by
  induction rest generalizing below t with
  | nil => rfl
  | cons entry rest ih => exact ih _ _

/-- The scan closes the stack that it has come to. -/
theorem plug_advance (rest : List (β × α)) (below : Waiting α β) (t : Grouping α β) :
    plug (advance combines rest below t).1 (advance combines rest below t).2 =
      scan combines rest below t := by
  have hend : scan combines (rest ++ []) below t =
      plug (advance combines rest below t).1 (advance combines rest below t).2 :=
    scan_append rest [] below t
  rw [List.append_nil] at hend
  exact hend.symm

/-- An operator before which all others combine empties the stack. -/
theorem settle_of_combines {o : β} (h : ∀ p, combines p o = true) (below : Waiting α β)
    (t : Grouping α β) : settle combines o below t = ([], plug below t) := by
  induction below generalizing t with
  | nil => rfl
  | cons entry below ih =>
    obtain ⟨left, p⟩ := entry
    rw [settle, h p, if_pos rfl, ih, plug]

/-! ## A settled grouping is scanned as it is -/

/-- The operator on top of a stack, if there is one, keeps waiting when `q` comes in. -/
def KeepsWaiting (combines : β → β → Bool) (below : Waiting α β) (q : β) : Prop :=
  ∀ entry ∈ below.head?, combines entry.2 q = false

/-- Nothing is combined in front of an operator that lets all others wait. -/
theorem settle_of_keepsWaiting {o : β} {below : Waiting α β}
    (h : KeepsWaiting combines below o) (t : Grouping α β) :
    settle combines o below t = (below, t) := by
  cases below with
  | nil => rfl
  | cons entry below =>
    obtain ⟨left, p⟩ := entry
    have hp : combines p o = false := h (left, p) rfl
    rw [settle, hp]
    rfl

/-- What lies at the bottom of a stack and keeps waiting is not touched. -/
theorem settle_append {o : β} {bottom : Waiting α β} (h : KeepsWaiting combines bottom o)
    (below : Waiting α β) (t : Grouping α β) :
    settle combines o (below ++ bottom) t =
      ((settle combines o below t).1 ++ bottom, (settle combines o below t).2) := by
  induction below generalizing t with
  | nil => exact settle_of_keepsWaiting h t
  | cons entry below ih =>
    obtain ⟨left, p⟩ := entry
    rw [List.cons_append, settle, settle]
    split
    · exact ih _
    · rfl

/-- Where the bottom of a stack keeps waiting for all that is read, it is closed over what the scan
makes of the rest. -/
theorem scan_append_stack {rest : List (β × α)} {bottom : Waiting α β}
    (h : ∀ entry ∈ rest, KeepsWaiting combines bottom entry.1) (below : Waiting α β)
    (t : Grouping α β) :
    scan combines rest (below ++ bottom) t = plug bottom (scan combines rest below t) := by
  induction rest generalizing below t with
  | nil => exact plug_append below bottom t
  | cons entry rest ih =>
    obtain ⟨o, a⟩ := entry
    rw [List.forall_mem_cons] at h
    rw [scan, settle_append h.1, scan]
    exact ih h.2 (_ :: _) _

/-- The stack on which a scan ends that has read just the sequence below a grouping: the operators
of the right spine, each with its left part. -/
def spineStack : Grouping α β → Waiting α β
  | operand _ => []
  | operation left op right => right.spineStack ++ [(left, op)]

/-- The last operand. -/
def last : Grouping α β → α
  | operand a => a
  | operation _ _ right => right.last

/-- A grouping is its last operand, plugged into the stack of its right spine. -/
theorem plug_spineStack (t : Grouping α β) : plug t.spineStack (operand t.last) = t := by
  induction t with
  | operand a => rfl
  | operation left op right _ ihr =>
    rw [spineStack, last, plug_append, ihr]
    rfl

/-- An operator that combines a whole right spine puts the grouping together again. -/
theorem settle_spineStack {o : β} (t : Grouping α β) (below : Waiting α β)
    (h : ∀ p ∈ t.rightSpine, combines p o = true) :
    settle combines o (t.spineStack ++ below) (operand t.last) = settle combines o below t := by
  induction t generalizing below with
  | operand a => rfl
  | operation left op right _ ihr =>
    have hright : ∀ p ∈ right.rightSpine, combines p o = true :=
      fun p hp => h p (List.mem_append_left _ hp)
    have hop : combines op o = true := h op (List.mem_append_right _ List.mem_cons_self)
    rw [spineStack, last, List.append_assoc, ihr _ hright, List.singleton_append, settle, hop]
    rfl

/-- From a stack whose top keeps waiting, the sequence below a settled grouping is read to the end
and its right spine lies open on the stack. -/
theorem scan_settled {t : Grouping α β} (ht : t.Settled combines) (more : List (β × α))
    (below : Waiting α β) (hbelow : ∀ q ∈ t.leftSpine, KeepsWaiting combines below q) :
    scan combines (t.rest ++ more) below (operand t.first) =
      scan combines more (t.spineStack ++ below) (operand t.last) := by
  induction t generalizing below more with
  | operand a => rfl
  | operation left op right ihl ihr =>
    obtain ⟨hleft, hright, htl, htr⟩ := ht
    have hop : KeepsWaiting combines below op := hbelow op List.mem_cons_self
    have hbelow' : ∀ q ∈ left.leftSpine, KeepsWaiting combines below q :=
      fun q hq => hbelow q (List.mem_cons_of_mem _ hq)
    have hpushed : ∀ q ∈ right.leftSpine, KeepsWaiting combines ((left, op) :: below) q := by
      intro q hq entry hentry
      cases hentry
      exact hright q hq
    -- the left part is read, `op` puts its open spine together and waits, the right part is read
    rw [rest, first, List.append_assoc, ihl htl _ _ hbelow', List.cons_append, scan,
      settle_spineStack left below hleft, settle_of_keepsWaiting hop left, ihr htr _ _ hpushed,
      spineStack, last, List.append_assoc, List.singleton_append]

/-- The scan finds every settled grouping of its sequence. -/
theorem Settled.group_eq {t : Grouping α β} (ht : t.Settled combines) :
    group combines t.first t.rest = t := by
  have hscan := scan_settled ht [] [] (fun _ _ => nofun)
  rw [List.append_nil, List.append_nil] at hscan
  rw [group, hscan]
  exact t.plug_spineStack

/-- A sequence has at most one settled grouping. -/
theorem Settled.unique {t t' : Grouping α β} (ht : t.Settled combines) (ht' : t'.Settled combines)
    (hfirst : t.first = t'.first) (hrest : t.rest = t'.rest) : t = t' := by
  rw [← ht.group_eq, ← ht'.group_eq, hfirst, hrest]

/-! ## The scan settles a sequence -/

theorem Settled.of_plug {below : Waiting α β} {t : Grouping α β}
    (h : (plug below t).Settled combines) : t.Settled combines := by
  induction below generalizing t with
  | nil => exact h
  | cons entry below ih => exact (ih h).2.2.2

/-- A settled part on top of a stack may give way to another one with the same left spine. -/
theorem Settled.plug_of_leftSpine_eq {below : Waiting α β} {t t' : Grouping α β}
    (h : (plug below t).Settled combines) (ht' : t'.Settled combines)
    (hspine : t'.leftSpine = t.leftSpine) : (plug below t').Settled combines := by
  induction below generalizing t t' with
  | nil => exact ht'
  | cons entry below ih =>
    obtain ⟨left, p⟩ := entry
    obtain ⟨hleft, hright, htl, -⟩ : (operation left p t).Settled combines := Settled.of_plug h
    exact ih h ⟨hleft, hspine ▸ hright, htl, ht'⟩ rfl

/-- What stops an incoming operator keeps waiting for it. -/
theorem keepsWaiting_settle (o : β) (below : Waiting α β) (t : Grouping α β) :
    KeepsWaiting combines (settle combines o below t).1 o := by
  induction below generalizing t with
  | nil => exact nofun
  | cons entry below ih =>
    obtain ⟨left, p⟩ := entry
    rw [settle]
    split
    · exact ih _
    · next hp =>
      intro entry hentry
      cases hentry
      exact Bool.eq_false_iff.mpr hp

/-- What an incoming operator has put together, it asked for at every step of the right spine. -/
theorem rightSpine_settle (o : β) (below : Waiting α β) {t : Grouping α β}
    (h : ∀ p ∈ t.rightSpine, combines p o = true) :
    ∀ p ∈ (settle combines o below t).2.rightSpine, combines p o = true := by
  induction below generalizing t with
  | nil => exact h
  | cons entry below ih =>
    obtain ⟨left, p⟩ := entry
    rw [settle]
    split
    · next hp =>
      refine ih fun q hq => ?_
      rcases List.mem_append.mp hq with hq | hq
      · exact h q hq
      · exact List.mem_singleton.mp hq ▸ hp
    · exact h

/-- An operator and its right operand are read without unsettling the grouping of the stack. -/
theorem Settled.push {below : Waiting α β} {t : Grouping α β} {o : β}
    (h : (plug below t).Settled combines) (hspine : ∀ p ∈ t.rightSpine, combines p o = true)
    (hwait : KeepsWaiting combines below o) (a : α) :
    (plug below (operation t o (operand a))).Settled combines := by
  have ht : (operation t o (operand a)).Settled combines :=
    ⟨hspine, nofun, h.of_plug, trivial⟩
  -- only the top of the stack touches `o`; below it the left spine is as it was
  cases below with
  | nil => exact ht
  | cons entry below =>
    obtain ⟨left, p⟩ := entry
    obtain ⟨hleft, hright, htl, -⟩ : (operation left p t).Settled combines := Settled.of_plug h
    have hpo : combines p o = false := hwait (left, p) rfl
    have hopen : (operation left p (operation t o (operand a))).Settled combines := by
      refine ⟨hleft, fun q hq => ?_, htl, ht⟩
      rcases List.mem_cons.mp hq with rfl | hq
      · exact hpo
      · exact hright q hq
    have hclosed : (plug below (operation left p t)).Settled combines := h
    exact hclosed.plug_of_leftSpine_eq hopen rfl

/-- The scan keeps the grouping of its stack settled. -/
theorem settled_scan (rest : List (β × α)) {below : Waiting α β} {t : Grouping α β}
    (h : (plug below t).Settled combines) (ht : t.rightSpine = []) :
    (scan combines rest below t).Settled combines := by
  -- on the row, with the whole stack settled: each operator is pushed where it keeps all below
  -- waiting
  induction rest generalizing below t with
  | nil => exact h
  | cons entry rest ih =>
    obtain ⟨o, a⟩ := entry
    have hplug : (plug (settle combines o below t).1 (settle combines o below t).2).Settled
        combines := by
      rw [plug_settle]
      exact h
    have hspine : ∀ p ∈ t.rightSpine, combines p o = true := by
      rw [ht]
      exact nofun
    rw [scan]
    exact ih (hplug.push (rightSpine_settle o below hspine) (keepsWaiting_settle o below t) a) rfl

theorem settled_group (a : α) (rest : List (β × α)) :
    (group combines a rest).Settled combines :=
  settled_scan rest trivial rfl

end OperatorFold.Grouping
