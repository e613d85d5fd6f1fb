import OperatorFold.Proofs.Grouping.Scan
import OperatorFold.Proofs.Precedence.Comparison

/-! # The fold of a sequence is a grouping

The elements of a sequence are a first operand and, behind it, operators with one operand each. The
two stacks of the fold are the two halves of one stack of waiting operators with their left parts,
so the fold yields the node of the grouping that the scan finds (`yields_foldSequence`).

The errors that two operators are incomparable are the conflicts of this grouping
(`filter_foldErrors`): an operator is compared with the right spine of what it comes to stand over,
from the last operand outwards, and no one else it is compared with is in conflict with it.
-/

namespace OperatorFold

open Reporting

namespace Grouping

/-- The tree of a grouping: an operation stands where its left part stands. -/
def node : Grouping Node OperatorUse → Node
  | operand n => n
  | operation left use right =>
    .binary left.node (.operator use) right.node (left.node.span?.getD .unknown)

/-- The elements of the sequence below a grouping. -/
def elements : Grouping Node OperatorUse → List Node
  | operand n => [n]
  | operation left use right => left.elements ++ .operator use :: right.elements

/-- What holds of the operands holds of the tree, if it passes from the parts of an operation to the
operation. -/
theorem node_of_binary {p : Node → Prop} {q : OperatorUse → Prop}
    (hbinary : ∀ {left right use span}, p left → q use → p right →
      p (.binary left (.operator use) right span))
    {t : Grouping Node OperatorUse} (hoperands : ∀ n ∈ t.operands, p n)
    (hoperators : ∀ use ∈ t.operators, q use) : p t.node := by
  induction t with
  | operand n => exact hoperands n List.mem_cons_self
  | operation left op right ihl ihr =>
    rw [operands, List.forall_mem_append] at hoperands
    rw [operators, List.forall_mem_append, List.forall_mem_cons] at hoperators
    exact hbinary (ihl hoperands.1 hoperators.1) hoperators.2.1 (ihr hoperands.2 hoperators.2.2)

end Grouping

namespace Node

/-- Operators, each with the operand behind it, as elements of a sequence. -/
def spell (rest : List (OperatorUse × Node)) : List Node :=
  rest.flatMap fun entry => [.operator entry.1, entry.2]

theorem spell_cons (use : OperatorUse) (n : Node) (rest : List (OperatorUse × Node)) :
    spell ((use, n) :: rest) = .operator use :: n :: spell rest := rfl

theorem spell_append (rest more : List (OperatorUse × Node)) :
    spell (rest ++ more) = spell rest ++ spell more := List.flatMap_append

/-- Different rows of operators are spelled differently. -/
theorem spell_injective {rest rest' : List (OperatorUse × Node)} (h : spell rest = spell rest') :
    rest = rest' := by
  induction rest generalizing rest' with
  | nil =>
    cases rest' with
    | nil => rfl
    | cons entry rest' => cases h
  | cons entry rest ih =>
    cases rest' with
    | nil => cases h
    | cons entry' rest' =>
      obtain ⟨use, n⟩ := entry
      obtain ⟨use', n'⟩ := entry'
      rw [spell_cons, spell_cons] at h
      injection h with huse h
      injection h with hn h
      injection huse with huse
      rw [huse, hn, ih h]

theorem length_spell (rest : List (OperatorUse × Node)) :
    (spell rest).length = 2 * rest.length := by
  induction rest with
  | nil => rfl
  | cons entry rest ih =>
    obtain ⟨use, n⟩ := entry
    rw [spell_cons, List.length_cons, List.length_cons, List.length_cons, ih]
    omega

/-- The elements of a sequence are its operands and its operators. -/
theorem mem_cons_spell {first n : Node} {rest : List (OperatorUse × Node)} :
    n ∈ first :: spell rest ↔
      n ∈ first :: rest.map Prod.snd ∨ ∃ entry ∈ rest, n = .operator entry.1 := by
  simp only [spell, List.mem_cons, List.mem_flatMap, List.mem_map, List.not_mem_nil, or_false]
  constructor
  · rintro (rfl | ⟨entry, hentry, rfl | rfl⟩)
    · exact .inl (.inl rfl)
    · exact .inr ⟨entry, hentry, rfl⟩
    · exact .inl (.inr ⟨entry, hentry, rfl⟩)
  · rintro ((rfl | ⟨entry, hentry, rfl⟩) | ⟨entry, hentry, rfl⟩)
    · exact .inl rfl
    · exact .inr ⟨entry, hentry, .inr rfl⟩
    · exact .inr ⟨entry, hentry, .inl rfl⟩

/-- From an even position on, an odd number of well placed elements is an operand with operators
and operands behind it. -/
theorem exists_spell_of_misplacedFrom {index : Nat} (hindex : index % 2 = 0) :
    ∀ {elements : List Node}, elements.length % 2 = 1 → misplacedFrom index elements = none →
      ∃ first rest, elements = first :: spell rest
  | [], hlen, _ => by cases hlen
  | [first], _, _ => ⟨first, [], rfl⟩
  | first :: second :: more, hlen, h => by
    have hmore : more.length % 2 = 1 := by
      simp only [List.length_cons] at hlen
      omega
    have hodd : (index + 1) % 2 = 1 := by omega
    simp only [misplacedFrom, hindex, hodd] at h
    split at h
    · -- the first element is an operand and the second one an operator, and so on behind them
      split at h
      · next hop =>
        obtain ⟨n, rest, rfl⟩ := exists_spell_of_misplacedFrom (by omega) hmore h
        cases second with
        | operator use => exact ⟨first, (use, n) :: rest, rfl⟩
        | _ => simp [isOperator] at hop
      · cases h
    · cases h

/-- A sequence without a fault is an operand with operators and operands behind it. -/
theorem exists_spell {elements : List Node} (h : sequenceFault elements = none) :
    ∃ first rest, elements = first :: spell rest := by
  unfold sequenceFault at h
  split at h
  · cases h
  · next heven =>
    refine exists_spell_of_misplacedFrom rfl ?_ h
    have hne : ¬elements.length % 2 = 0 := by simpa using heven
    omega

/-- Behind a first operand, no element is misplaced if an operand stands behind every operator. -/
theorem misplacedFrom_spell {index : Nat} (hindex : index % 2 = 0) (first : Node)
    (rest : List (OperatorUse × Node)) :
    misplacedFrom index (first :: spell rest) = none ↔
      first.isOperator = false ∧ ∀ entry ∈ rest, entry.2.isOperator = false := by
  induction rest generalizing index first with
  | nil => cases hfirst : first.isOperator <;> simp [spell, misplacedFrom, hindex, hfirst]
  | cons entry rest ih =>
    obtain ⟨use, n⟩ := entry
    have hodd : (index + 1) % 2 = 1 := by omega
    have heven : (index + 1 + 1) % 2 = 0 := by omega
    have hrest := ih heven n
    rw [spell_cons, misplacedFrom, misplacedFrom]
    cases hfirst : first.isOperator <;> simp [hindex, hodd, isOperator, hrest]

/-- Operands and operators in turn are the elements of a sequence exactly if no operand is an
operator. -/
theorem sequenceFault_spell (first : Node) (rest : List (OperatorUse × Node)) :
    sequenceFault (first :: spell rest) = none ↔
      first.isOperator = false ∧ ∀ entry ∈ rest, entry.2.isOperator = false := by
  have hlength : (first :: spell rest).length % 2 = 1 := by
    rw [List.length_cons, length_spell]
    omega
  rw [sequenceFault, hlength]
  exact misplacedFrom_spell rfl first rest

end Node

namespace Grouping

/-- The elements below a grouping are its first operand and the operators behind it, spelled. -/
theorem elements_eq (t : Grouping Node OperatorUse) :
    t.elements = t.first :: Node.spell t.rest := by
  induction t with
  | operand n => rfl
  | operation left use right ihl ihr =>
    rw [elements, ihl, ihr, first, rest, Node.spell_append, Node.spell_cons, List.cons_append]

/-- Groupings of the same elements are groupings of the same sequence. -/
theorem elements_eq_iff {t t' : Grouping Node OperatorUse} :
    t.elements = t'.elements ↔ t.first = t'.first ∧ t.rest = t'.rest := by
  rw [elements_eq, elements_eq]
  constructor
  · intro h
    injection h with hfirst hspell
    exact ⟨hfirst, Node.spell_injective hspell⟩
  · rintro ⟨hfirst, hrest⟩
    rw [hfirst, hrest]

/-- The elements of a sequence have at most one settled grouping. -/
theorem Settled.eq_of_elements_eq {combines : OperatorUse → OperatorUse → Bool}
    {t t' : Grouping Node OperatorUse} (ht : t.Settled combines) (ht' : t'.Settled combines)
    (h : t.elements = t'.elements) : t = t' :=
  ht.unique ht' (elements_eq_iff.mp h).1 (elements_eq_iff.mp h).2

/-- An element is an operand or an operator. -/
theorem mem_elements {t : Grouping Node OperatorUse} {n : Node} :
    n ∈ t.elements ↔ n ∈ t.operands ∨ ∃ use ∈ t.operators, n = .operator use := by
  induction t with
  | operand a => simp only [elements, operands, operators, List.not_mem_nil, false_and,
      exists_false, or_false]
  | operation left op right ihl ihr =>
    simp only [elements, operands, operators, List.mem_append, List.mem_cons, ihl, ihr]
    constructor
    · rintro ((h | ⟨use, huse, rfl⟩) | rfl | h | ⟨use, huse, rfl⟩)
      · exact .inl (.inl h)
      · exact .inr ⟨use, .inl huse, rfl⟩
      · exact .inr ⟨op, .inr (.inl rfl), rfl⟩
      · exact .inl (.inr h)
      · exact .inr ⟨use, .inr (.inr huse), rfl⟩
    · rintro ((h | h) | ⟨use, huse | rfl | huse, rfl⟩)
      · exact .inl (.inl h)
      · exact .inr (.inr (.inl h))
      · exact .inl (.inr ⟨use, huse, rfl⟩)
      · exact .inr (.inl rfl)
      · exact .inr (.inr (.inr ⟨use, huse, rfl⟩))

/-- The elements of a grouping alternate exactly if no operand is an operator. -/
theorem sequenceFault_elements {t : Grouping Node OperatorUse} :
    Node.sequenceFault t.elements = none ↔ ∀ n ∈ t.operands, n.isOperator = false := by
  rw [elements_eq, operands_eq, Node.sequenceFault_spell, List.forall_mem_cons,
    List.forall_mem_map]

section OverOperands

variable {t : Grouping Node OperatorUse}

/-- The operands of a grouping can stand between operators: none is an operator itself, and none is
bare. -/
def OverOperands (t : Grouping Node OperatorUse) : Prop :=
  ∀ n ∈ t.operands, n.isOperator = false ∧ n ≠ .bare

/-- The elements below a grouping over operands are a sequence. -/
theorem OverOperands.sequenceFault (h : t.OverOperands) : Node.sequenceFault t.elements = none :=
  sequenceFault_elements.mpr fun n hn => (h n hn).1

theorem OverOperands.not_mem_bare (h : t.OverOperands) : .bare ∉ t.elements := by
  intro hmem
  rcases mem_elements.mp hmem with hmem | ⟨_, _, heq⟩
  · exact (h .bare hmem).2 rfl
  · cases heq

/-- A grouping of a sequence without bare elements is over operands. -/
theorem overOperands_of_elements (hseq : Node.sequenceFault t.elements = none)
    (hbare : .bare ∉ t.elements) : t.OverOperands := by
  intro n hn
  refine ⟨sequenceFault_elements.mp hseq n hn, ?_⟩
  rintro rfl
  exact hbare (mem_elements.mpr (.inl hn))

/-- So can the grouping itself. -/
theorem OverOperands.node (h : t.OverOperands) : t.node.isOperator = false ∧ t.node ≠ .bare := by
  cases t with
  | operand n => exact h n List.mem_cons_self
  | operation left use right => exact ⟨rfl, nofun⟩

end OverOperands

/-- No operand is a bare node, so every part of a grouping has a span to hand on. -/
def Placed (t : Grouping Node OperatorUse) : Prop := ∀ n ∈ t.operands, n ≠ .bare

/-- The tree of a grouping that can be placed has a span. -/
theorem Placed.span {t : Grouping Node OperatorUse} (h : t.Placed) :
    t.node.span? = some (t.node.span?.getD .unknown) := by
  cases t with
  | operand n =>
    have hn : n ≠ .bare := h n List.mem_cons_self
    cases n <;> first | rfl | exact absurd rfl hn
  | operation left use right => rfl

end Grouping

namespace Registry

open Grouping

variable (r : Registry)

/-! ## The two stacks -/

/-- The waiting operators of a stack. -/
def pendingOf (below : Waiting Node OperatorUse) : List Pending :=
  below.map fun entry => r.pending entry.2

/-- The left parts of a stack. -/
def operandsOf (below : Waiting Node OperatorUse) : List Node :=
  below.map fun entry => entry.1.node

/-- An operator combines the two operands on top, the upper one on its right. -/
theorem combine_eq {left t : Grouping Node OperatorUse} (h : left.Placed) (use : OperatorUse)
    (operands : List Node) :
    (r.pending use).combine (t.node :: left.node :: operands) =
      .ok ((operation left use t).node :: operands) := by
  rw [Pending.combine, h.span]
  rfl

/-- The errors of settling an incoming operator with the waiting ones. -/
def settleErrors (o : OperatorUse) : Waiting Node OperatorUse → List PrecedenceError
  | [] => []
  | (_, p) :: below =>
    (r.shouldCombine (r.pending p) (r.pending o)).errors ++
      if r.combines p o then settleErrors o below else []

/-- In front of an operator, the two stacks are settled as the one stack is. -/
theorem yields_settle (o : OperatorUse) {below : Waiting Node OperatorUse}
    (hbelow : ∀ entry ∈ below, entry.1.Placed) (t : Grouping Node OperatorUse) :
    Yields (r.settle (r.pending o) (r.pendingOf below) (t.node :: operandsOf below))
      (r.pendingOf (Grouping.settle r.combines o below t).1,
        (Grouping.settle r.combines o below t).2.node ::
          operandsOf (Grouping.settle r.combines o below t).1)
      (r.settleErrors o below) := by
  -- on the stack from the top, as long as what waits there combines
  induction below generalizing t with
  | nil => exact yields_pure _
  | cons entry below ih =>
    obtain ⟨left, p⟩ := entry
    have hasked := r.yields_shouldCombine p o
    have hcombine := r.combine_eq (t := t) (hbelow (left, p) List.mem_cons_self) p
      (operandsOf below)
    refine hasked.bind ?_
    rw [Grouping.settle]
    cases hc : r.combines p o with
    | false => exact yields_pure _
    -- the two operands on top become one, and the next operator below is asked
    | true =>
      have hrest := ih (fun entry h => hbelow entry (List.mem_cons_of_mem _ h))
        (operation left p t)
      exact (yields_ofExcept hcombine).bind hrest

/-- At the end, the two stacks are plugged as the one stack is. -/
theorem yields_drain {below : Waiting Node OperatorUse}
    (hbelow : ∀ entry ∈ below, entry.1.Placed) (t : Grouping Node OperatorUse) :
    Yields (drain (r.pendingOf below) (t.node :: operandsOf below)) [(plug below t).node] [] := by
  induction below generalizing t with
  | nil => exact yields_pure _
  | cons entry below ih =>
    obtain ⟨left, p⟩ := entry
    have hcombine := r.combine_eq (t := t) (hbelow (left, p) List.mem_cons_self) p
      (operandsOf below)
    have hrest := ih (fun entry h => hbelow entry (List.mem_cons_of_mem _ h)) (operation left p t)
    exact (yields_ofExcept hcombine).bind hrest

/-- What can be placed can still be placed after it is settled. -/
theorem placed_settle (combines : OperatorUse → OperatorUse → Bool) (o : OperatorUse)
    {below : Waiting Node OperatorUse} (hbelow : ∀ entry ∈ below, entry.1.Placed)
    {t : Grouping Node OperatorUse} (ht : t.Placed) :
    (∀ entry ∈ (Grouping.settle combines o below t).1, entry.1.Placed) ∧
      (Grouping.settle combines o below t).2.Placed := by
  induction below generalizing t with
  | nil => exact ⟨hbelow, ht⟩
  | cons entry below ih =>
    obtain ⟨left, p⟩ := entry
    have hleft : left.Placed := hbelow (left, p) List.mem_cons_self
    rw [Grouping.settle]
    split
    · apply ih fun entry h => hbelow entry (List.mem_cons_of_mem _ h)
      intro n hn
      rcases List.mem_append.mp hn with hn | hn
      · exact hleft n hn
      · exact ht n hn
    · exact ⟨hbelow, ht⟩

/-! ## The scan -/

/-- The errors of reading operators, each with the operand behind it. -/
def scanErrors : List (OperatorUse × Node) → Waiting Node OperatorUse →
    Grouping Node OperatorUse → List PrecedenceError
  | [], _, _ => []
  | (o, n) :: rest, below, t =>
    let settled := Grouping.settle r.combines o below t
    (r.levelOf o).errors ++ (r.settleErrors o below ++
      scanErrors rest ((settled.2, o) :: settled.1) (operand n))

/-- So the fold over two stacks goes along with the scan over one. -/
theorem yields_scan {rest : List (OperatorUse × Node)} (hrest : ∀ entry ∈ rest, entry.2 ≠ .bare)
    {below : Waiting Node OperatorUse} (hbelow : ∀ entry ∈ below, entry.1.Placed)
    {t : Grouping Node OperatorUse} (ht : t.Placed) :
    Yields (r.scan (Node.spell rest) (r.pendingOf below) (t.node :: operandsOf below))
      [(Grouping.scan r.combines rest below t).node] (r.scanErrors rest below t) := by
  -- on the row of operators; nothing that waits is bare, so each combination has a span to hand on
  induction rest generalizing below t with
  | nil => exact r.yields_drain hbelow t
  | cons entry rest ih =>
    obtain ⟨o, n⟩ := entry
    have hn : (operand n : Grouping Node OperatorUse).Placed := by
      intro m hm
      rw [List.mem_singleton.mp hm]
      exact hrest (o, n) List.mem_cons_self
    obtain ⟨hsettled, hpart⟩ := placed_settle r.combines o hbelow ht
    have hpushed : ∀ entry ∈ ((Grouping.settle r.combines o below t).2, o) ::
        (Grouping.settle r.combines o below t).1, entry.1.Placed := by
      intro entry hentry
      rcases List.mem_cons.mp hentry with rfl | hentry
      · exact hpart
      · exact hsettled entry hentry
    have hmore := ih (fun entry h => hrest entry (List.mem_cons_of_mem _ h)) hpushed hn
    exact (r.yields_levelOf o).bind ((r.yields_settle o hbelow t).bind hmore)

/-- The grouping of a sequence. -/
def grouping (first : Node) (rest : List (OperatorUse × Node)) : Grouping Node OperatorUse :=
  group r.combines first rest

/-- The grouping of a row has the elements of the row below it. -/
theorem elements_grouping (first : Node) (rest : List (OperatorUse × Node)) :
    (r.grouping first rest).elements = first :: Node.spell rest := by
  rw [elements_eq, grouping, group_first, group_rest]

/-- The errors of folding a sequence. -/
def foldErrors (first : Node) (rest : List (OperatorUse × Node)) : List PrecedenceError :=
  r.scanErrors rest [] (operand first)

/-- The fold of a sequence yields its grouping. -/
theorem yields_foldSequence {first : Node} {rest : List (OperatorUse × Node)}
    (hbare : Node.bare ∉ first :: Node.spell rest) :
    Yields (r.foldSequence (first :: Node.spell rest)) (r.grouping first rest).node
      (r.foldErrors first rest) := by
  have hfirst : (operand first : Grouping Node OperatorUse).Placed := by
    intro m hm hm'
    rw [List.mem_singleton.mp hm] at hm'
    exact hbare (hm' ▸ List.mem_cons_self)
  have hrest : ∀ entry ∈ rest, entry.2 ≠ .bare := by
    intro entry hentry hn
    have hmem : entry.2 ∈ first :: rest.map Prod.snd :=
      List.mem_cons_of_mem _ (List.mem_map_of_mem hentry)
    exact hbare (Node.mem_cons_spell.mpr (.inl (hn ▸ hmem)))
  have hempty : ∀ entry ∈ ([] : Waiting Node OperatorUse), entry.1.Placed := fun _ => nofun
  have hscan := r.yields_scan hrest hempty hfirst
  rw [foldSequence]
  -- the counts of errors only go to the log
  refine yields_errorCount_bind fun before => ?_
  rw [← List.append_nil (r.foldErrors first rest)]
  refine hscan.bind (yields_errorCount_bind fun after => ?_)
  exact (yields_log _).bind (yields_pure _)

/-! ## Incomparable operators -/

/-- The conflicts of an incoming operator with what it comes to stand over are reported in turn, and
nothing else is. -/
theorem filter_settleErrors (o : OperatorUse) (below : Waiting Node OperatorUse)
    (t : Grouping Node OperatorUse) :
    (t.conflictsWith r.conflicting o).map r.incomparable ++
        (r.settleErrors o below).filter (·.isIncomparable) =
      ((Grouping.settle r.combines o below t).2.conflictsWith r.conflicting o).map
        r.incomparable := by
  induction below generalizing t with
  | nil => rw [settleErrors, List.filter_nil, List.append_nil]; rfl
  | cons entry below ih =>
    obtain ⟨left, p⟩ := entry
    rw [settleErrors, Grouping.settle, List.filter_append, filter_shouldCombine_errors]
    cases hc : r.combines p o with
    | true =>
      rw [if_pos rfl, if_pos rfl, ← ih, conflictsWith_operation, List.map_append, List.append_assoc]
      cases r.conflicting p o <;> rfl
    | false =>
      -- what is in conflict combines, so the operator that stops `o` is not
      have hno : r.conflicting p o = false := by
        cases h : r.conflicting p o with
        | false => rfl
        | true => rw [r.combines_of_conflicting h] at hc; cases hc
      simp [hno]

/-- The incomparable operators of a fold are the conflicts of its grouping. -/
theorem filter_scanErrors (rest : List (OperatorUse × Node)) (below : Waiting Node OperatorUse)
    {t : Grouping Node OperatorUse} (ht : t.rightSpine = []) :
    ((plug below t).conflicts r.conflicting).map r.incomparable ++
        (r.scanErrors rest below t).filter (·.isIncomparable) =
      ((Grouping.scan r.combines rest below t).conflicts r.conflicting).map
        r.incomparable := by
  induction rest generalizing below t with
  | nil => rw [scanErrors, List.filter_nil, List.append_nil]; rfl
  | cons entry rest ih =>
    obtain ⟨o, n⟩ := entry
    -- `t` is an operand, so `o` has all that it comes to stand over still on the stack
    have hnone : t.conflictsWith r.conflicting o = [] := by rw [conflictsWith, ht]; rfl
    have hsettle := r.filter_settleErrors o below t
    have hread : (operation (Grouping.settle r.combines o below t).2 o (operand n)).conflicts
        r.conflicting = (Grouping.settle r.combines o below t).2.conflicts r.conflicting ++
          (Grouping.settle r.combines o below t).2.conflictsWith r.conflicting o := by
      simp only [conflicts, List.append_nil]
    have hpush := conflicts_plug (Grouping.settle r.combines o below t).1 hread
    rw [hnone, List.map_nil, List.nil_append] at hsettle
    rw [plug_settle] at hpush
    rw [scanErrors, Grouping.scan, ← ih _ rfl, plug, hpush, List.filter_append, List.filter_append,
      filter_levelOf_errors, List.nil_append, hsettle, List.map_append, List.append_assoc]

/-- The errors of a fold that operators are incomparable are the conflicts of its grouping. -/
theorem filter_foldErrors (first : Node) (rest : List (OperatorUse × Node)) :
    (r.foldErrors first rest).filter (·.isIncomparable) =
      ((r.grouping first rest).conflicts r.conflicting).map
        r.incomparable :=
  r.filter_scanErrors rest [] (t := operand first) rfl

/-! ## The fold -/

section Settled

variable {r} {t : Grouping Node OperatorUse} (ht : t.Settled r.combines)

include ht

/-- A settled grouping is the grouping of its own sequence. -/
theorem grouping_of_settled : r.grouping t.first t.rest = t := ht.group_eq

/-- The incomparable operators of the sequence are its conflicts. -/
theorem filter_foldErrors_of_settled :
    (r.foldErrors t.first t.rest).filter (·.isIncomparable) =
      (t.conflicts r.conflicting).map r.incomparable := by
  rw [filter_foldErrors, grouping_of_settled ht]

/-- It is what its elements fold to. -/
theorem yields_foldSequence_of_settled (hbare : Node.bare ∉ t.elements) :
    Yields (r.foldSequence t.elements) t.node (r.foldErrors t.first t.rest) := by
  rw [elements_eq] at hbare
  have hfold := r.yields_foldSequence hbare
  rw [grouping_of_settled ht, ← elements_eq] at hfold
  exact hfold

end Settled

/-- Every sequence has a settled grouping. -/
theorem exists_settled {elements : List Node} (hseq : Node.sequenceFault elements = none) :
    ∃ t : Grouping Node OperatorUse, t.elements = elements ∧ t.Settled r.combines := by
  obtain ⟨first, rest, rfl⟩ := Node.exists_spell hseq
  exact ⟨r.grouping first rest, r.elements_grouping first rest, settled_group first rest⟩

/-- It folds to this grouping. -/
theorem exists_yields_foldSequence {elements : List Node}
    (hseq : Node.sequenceFault elements = none) (hbare : Node.bare ∉ elements) :
    ∃ (t : Grouping Node OperatorUse) (es : List PrecedenceError),
      t.elements = elements ∧ t.Settled r.combines ∧
      Yields (r.foldSequence elements) t.node es ∧
      es.filter (·.isIncomparable) = (t.conflicts r.conflicting).map r.incomparable := by
  obtain ⟨t, rfl, hsettled⟩ := r.exists_settled hseq
  exact ⟨t, _, rfl, hsettled, yields_foldSequence_of_settled hsettled hbare,
    filter_foldErrors_of_settled hsettled⟩

end Registry

end OperatorFold
