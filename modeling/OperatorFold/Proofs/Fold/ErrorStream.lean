import OperatorFold.Proofs.Fold.InOrder
import OperatorFold.Proofs.Fold.Missing
import OperatorFold.Proofs.Fold.Splitting
import OperatorFold.Proofs.Precedence.Reordering

/-! # The errors of a fold, operator by operator

A fold reports what it finds about an operator when it reads it, and never comes back to it to
report more: the stack is closed at the end without any comparison. So its errors fall into one
block for each operator, in the order of the sequence. A block begins with what is wrong with the
declaration of its operator, and goes on with what comes of comparing this operator with those in
front of it (`ErrorStream`). What is read later adds blocks and changes none, so the errors of a
beginning of the sequence are a beginning of its errors.

The induction is on what is left to read. Its invariant is that all that waits has been read: an
operator is compared only with what waits, and what it leaves waiting has waited before.
-/

namespace OperatorFold

open Reporting Grouping

namespace Registry

variable {r : Registry} {use p o : OperatorUse} {earlier uses : List OperatorUse}
  {e : PrecedenceError} {es : List PrecedenceError}

/-! ## The block of an operator -/

/-- The errors of resolving an operator: one if no infix operator of its name is declared, whatever
prefix and postfix operators are, one if it is declared with a group that is not, and none
otherwise. -/
structure Resolution (r : Registry) (use : OperatorUse) (es : List PrecedenceError) : Prop where
  missingOperator_iff : .missingOperator use.name use.span ∈ es ↔
    ∀ op ∈ r.operators, op.fixity = .infixOp → op.name ≠ use.name
  missingGroup_iff : ∀ name, .missingGroup name use.span ∈ es ↔
    ∃ op, r.operator? use.name .infixOp = some op ∧ op.groupName = some name ∧
      r.group? name = none
  mem : ∀ e ∈ es, e = .missingOperator use.name use.span ∨
    ∃ name, e = .missingGroup name use.span
  length_le_one : es.length ≤ 1

/-- An error of comparing an operator with one of those in front of it: a walk between their two
groups comes to a name without a group, or the two are in conflict. -/
inductive ComparisonError (r : Registry) (earlier : List OperatorUse) (use : OperatorUse) :
    PrecedenceError → Prop
  | deadEnd {p : OperatorUse} {g h : PrecedenceGroup} {d : Direction} {edge : Edge}
      (hp : p ∈ earlier) (huse : r.level use = .declared g) (hlevel : r.level p = .declared h)
      (hne : g.name ≠ h.name) (hedge : edge ∈ (r.walk d g h.name).1.missing) :
      ComparisonError r earlier use (.missingGroup edge.target edge.span)
  | conflict {p : OperatorUse} (hp : p ∈ earlier) (hconflict : r.conflicting p use = true) :
      ComparisonError r earlier use
        (.incomparableOperators p (r.level p).name use (r.level use).name)

/-- The errors of reading some operators behind others: one block for each, those of resolving it
first and those of comparing it behind them. -/
inductive ErrorStream (r : Registry) :
    List OperatorUse → List OperatorUse → List PrecedenceError → Prop
  | nil (earlier : List OperatorUse) : ErrorStream r earlier [] []
  | cons {earlier uses : List OperatorUse} {use : OperatorUse}
      {resolution comparisons es : List PrecedenceError} (hresolution : r.Resolution use resolution)
      (hcomparisons : ∀ e ∈ comparisons, r.ComparisonError earlier use e)
      (hrest : ErrorStream r (earlier ++ [use]) uses es) :
      ErrorStream r earlier (use :: uses) (resolution ++ (comparisons ++ es))

/-! ## Resolving -/

/-- No operator is found exactly if all infix operators have other names. -/
theorem operator?_infixOp_eq_none_iff (r : Registry) (name : String) :
    r.operator? name .infixOp = none ↔
      ∀ op ∈ r.operators, op.fixity = .infixOp → op.name ≠ name := by
  simp only [operator?, List.find?_eq_none, Operator.key, decide_eq_true_eq, Prod.mk.injEq, not_and]
  exact forall₂_congr fun op _ => ⟨fun h hfix hname => h hname hfix,
    fun h hname hfix => h hfix hname⟩

/-- The errors on the way to a level are those of its resolution. -/
theorem resolution_levelOf (r : Registry) (use : OperatorUse) :
    r.Resolution use (r.levelOf use).errors := by
  have hnone := r.operator?_infixOp_eq_none_iff use.name
  obtain ⟨hop, hy⟩ | ⟨op, hop, hgroup, hy⟩ | ⟨op, name, hop, hgroup, hmissing, hy⟩ |
    ⟨op, name, g, hop, hgroup, hfound, hy⟩ := r.levelOf_cases use <;> rw [hy.errors_eq]
  · exact ⟨by simp [← hnone, hop], by simp [hop], by simp, by simp⟩
  · exact ⟨by simp [← hnone, hop], by simp [hop, hgroup], by simp, by simp⟩
  · -- the operator names a group that is not there, and this name is the only one to report
    refine ⟨by simp [← hnone, hop], fun name' => ?_, by simp, by simp⟩
    simp only [List.mem_singleton, PrecedenceError.missingGroup.injEq, and_true, hop,
      Option.some.injEq]
    constructor
    · rintro rfl
      exact ⟨op, rfl, hgroup, hmissing⟩
    · rintro ⟨_, rfl, hgroup', -⟩
      exact Option.some.inj (hgroup'.symm.trans hgroup)
  · refine ⟨by simp [← hnone, hop], fun name' => ?_, by simp, by simp⟩
    simp only [List.not_mem_nil, hop, Option.some.injEq, false_iff]
    rintro ⟨_, rfl, hgroup', hmissing⟩
    obtain rfl : name = name' := Option.some.inj (hgroup.symm.trans hgroup')
    rw [hmissing] at hfound
    cases hfound

/-! ## Comparing -/

/-- What a comparison with an earlier operator reports is an error of such a comparison. -/
theorem comparisonError_of_mem (hp : p ∈ earlier)
    (he : e ∈ (r.shouldCombine (r.pending p) (r.pending o)).errors) :
    r.ComparisonError earlier o e := by
  rw [(r.yields_shouldCombine_order p o).errors_eq, List.mem_append] at he
  rcases he with he | he
  · obtain ⟨g, h, d, edge, ho, hlevel, hne, hedge, rfl⟩ := of_mem_compare_errors he
    exact .deadEnd hp ho hlevel hne hedge
  · split at he
    · next hconflict =>
      rw [List.mem_singleton.mp he]
      exact .conflict hp hconflict
    · cases he

/-- An incoming operator is compared with what waits alone. -/
theorem comparisonError_of_mem_settleErrors {below : Waiting Node OperatorUse}
    (hbelow : ∀ entry ∈ below, entry.2 ∈ earlier) (he : e ∈ r.settleErrors o below) :
    r.ComparisonError earlier o e := by
  induction below with
  | nil => cases he
  | cons entry below ih =>
    obtain ⟨left, p⟩ := entry
    obtain ⟨hp, hbelow⟩ := List.forall_mem_cons.mp hbelow
    rw [settleErrors, List.mem_append] at he
    rcases he with he | he
    · exact comparisonError_of_mem hp he
    · split at he
      · exact ih hbelow he
      · cases he

/-! ## Reading -/

/-- A scan reports block by block, where the operators that wait have come earlier. -/
theorem errorStream_scanErrors (rest : List (OperatorUse × Node))
    {below : Waiting Node OperatorUse} (hbelow : ∀ entry ∈ below, entry.2 ∈ earlier)
    (t : Grouping Node OperatorUse) :
    r.ErrorStream earlier (rest.map Prod.fst) (r.scanErrors rest below t) := by
  induction rest generalizing earlier below t with
  | nil => exact .nil earlier
  | cons entry rest ih =>
    obtain ⟨o, n⟩ := entry
    have hpushed : ∀ entry ∈ ((Grouping.settle r.combines o below t).2, o) ::
        (Grouping.settle r.combines o below t).1, entry.2 ∈ earlier ++ [o] := by
      intro entry hentry
      rcases List.mem_cons.mp hentry with rfl | hentry
      · exact List.mem_append_right _ List.mem_cons_self
      · exact List.mem_append_left _ (hbelow entry ((settle_suffix o below t).subset hentry))
    exact .cons (r.resolution_levelOf o)
      (fun e he => comparisonError_of_mem_settleErrors hbelow he) (ih hpushed (operand n))

/-- A fold reports block by block from its first operator on. -/
theorem errorStream_foldErrors (r : Registry) (first : Node) (rest : List (OperatorUse × Node)) :
    r.ErrorStream [] (rest.map Prod.fst) (r.foldErrors first rest) := by
  have hempty : ∀ entry ∈ ([] : Waiting Node OperatorUse), entry.2 ∈ ([] : List OperatorUse) :=
    fun _ => nofun
  exact errorStream_scanErrors rest hempty (operand first)

/-- A beginning of the operators has a beginning of the errors. -/
theorem foldErrors_isPrefix (r : Registry) (first : Node) (rest more : List (OperatorUse × Node)) :
    r.foldErrors first rest <+: r.foldErrors first (rest ++ more) := by
  rw [foldErrors, foldErrors, scanErrors_append]
  exact List.prefix_append _ _

/-- A beginning of a sequence that ends in an operand is a sequence. -/
theorem exists_spell_of_isPrefix {before : List Node} {first n : Node}
    {rest : List (OperatorUse × Node)} (hn : n.isOperator = false)
    (h : before ++ [n] <+: first :: Node.spell rest) :
    ∃ taken more, rest = taken ++ more ∧ before ++ [n] = first :: Node.spell taken := by
  induction rest generalizing first before with
  | nil =>
    have hone : before ++ [n] = [first] := by
      refine h.eq_of_length_le ?_
      simp [Node.spell]
    exact ⟨[], [], rfl, hone⟩
  | cons entry rest ih =>
    obtain ⟨use, m⟩ := entry
    rw [Node.spell_cons] at h
    rcases before with _ | ⟨a, _ | ⟨b, before⟩⟩
    · obtain ⟨rfl, -⟩ := List.cons_prefix_cons.mp h
      exact ⟨[], _, rfl, rfl⟩
    · -- the second element is the operator, and `n` is not
      simp only [List.cons_append, List.nil_append, List.cons_prefix_cons] at h
      obtain ⟨-, rfl, -⟩ := h
      cases hn
    · simp only [List.cons_append, List.cons_prefix_cons] at h
      obtain ⟨rfl, rfl, h⟩ := h
      obtain ⟨taken, more, rfl, heq⟩ := ih h
      exact ⟨(use, m) :: taken, more, rfl, by rw [Node.spell_cons, ← heq]; rfl⟩

/-- **The errors of a fold come operator by operator.** Each operator has one block, in the order of
the sequence: first what is wrong with its declaration, then what comes of comparing it with those
in front of it. So the operators reported as missing are those that are not declared, in their
order; and where a beginning of the sequence ends in an operand, the errors of its fold are a
beginning of those of the whole. -/
theorem foldSequence_errorStream (r : Registry) {elements : List Node}
    (hseq : Node.sequenceFault elements = none) (hbare : Node.bare ∉ elements) :
    ∃ (uses : List OperatorUse) (outcome : Outcome Node),
      Node.operators elements = uses.map .operator ∧
      (r.foldSequence elements).collect = .ok outcome ∧
      r.ErrorStream [] uses outcome.errors ∧
      outcome.errors.filter (·.isMissingOperator) = uses.filterMap r.missingOperator? ∧
      ∀ before n, before ++ [n] <+: elements → n.isOperator = false →
        ∃ shorter, (r.foldSequence (before ++ [n])).collect = .ok shorter ∧
          shorter.errors <+: outcome.errors := by
  obtain ⟨first, rest, rfl⟩ := Node.exists_spell hseq
  refine ⟨rest.map Prod.fst, _, ?_, (r.yields_foldSequence hbare).collect,
    r.errorStream_foldErrors first rest, ?_, fun before n hbegin hn => ?_⟩
  · rw [Node.operators_spell, List.map_map]
    rfl
  · rw [filter_foldErrors_missingOperator, List.filterMap_map]
    rfl
  · -- a beginning that ends with an operand is a shorter row, and its fold reports a beginning
    obtain ⟨taken, more, rfl, heq⟩ := exists_spell_of_isPrefix hn hbegin
    have hbare' : Node.bare ∉ first :: Node.spell taken := by
      rw [← heq]
      exact fun hmem => hbare (hbegin.subset hmem)
    rw [heq]
    exact ⟨_, (r.yields_foldSequence hbare').collect, r.foldErrors_isPrefix first taken more⟩

/-- Declarations with all kinds of gaps: a group above a name without a group, an operator in a
group that is not declared, and one that is declared as a prefix operator alone. -/
def gaps : Registry :=
  holding [.group (.declare "sum" .left [] [] false .unknown),
    .group (.declare "apart" .none ["nowhere"] [] false { line := some 7 }),
    .operator { name := "+", groupName := some "sum" },
    .operator { name := "~", groupName := some "apart" },
    .operator { name := "?", groupName := some "elsewhere" },
    .operator { name := "!", fixity := .prefixOp, groupName := some "sum" }]

/-- What stands behind the first operand of `u ! v + w ~ x ? y ! z`, one operator a column. -/
def gapRest : List (OperatorUse × Node) :=
  [(⟨"!", { column := some 1 }⟩, .name "v" .unknown),
    (⟨"+", { column := some 2 }⟩, .name "w" .unknown),
    (⟨"~", { column := some 3 }⟩, .name "x" .unknown),
    (⟨"?", { column := some 4 }⟩, .name "y" .unknown),
    (⟨"!", { column := some 5 }⟩, .name "z" .unknown)]

/-- The errors of the fold: `~` has two, those of its comparison with `+`. -/
def gapErrors : List PrecedenceError :=
  [.missingOperator "!" { column := some 1 }, .missingGroup "nowhere" { line := some 7 },
    .incomparableOperators ⟨"+", { column := some 2 }⟩ "sum" ⟨"~", { column := some 3 }⟩ "apart",
    .missingGroup "elsewhere" { column := some 4 }, .missingOperator "!" { column := some 5 }]

/-- Every kind of error is met in one sequence, and what `u ! v + w` reports comes first. -/
theorem foldSequence_errorStream_gaps :
    Node.sequenceFault (.name "u" .unknown :: Node.spell gapRest) = none ∧
      .bare ∉ .name "u" .unknown :: Node.spell gapRest ∧
      ∃ value, (gaps.foldSequence (.name "u" .unknown :: Node.spell gapRest)).collect =
          .ok ⟨value, gapErrors⟩ ∧
        gaps.ErrorStream [] (gapRest.map Prod.fst) gapErrors ∧
        gapErrors.filter (·.isMissingOperator) =
          (gapRest.map Prod.fst).filterMap gaps.missingOperator? ∧
        ∃ shorter, (gaps.foldSequence
            (.name "u" .unknown :: Node.spell (gapRest.take 2))).collect = .ok shorter ∧
          shorter.errors <+: gapErrors := by
  have hseq : Node.sequenceFault (.name "u" .unknown :: Node.spell gapRest) = none := by decide
  have hbare : .bare ∉ .name "u" .unknown :: Node.spell gapRest := by simp [gapRest, Node.spell]
  obtain ⟨uses, ⟨value, es⟩, huses, hfold, hstream, hmissing, hbegin⟩ :=
    foldSequence_errorStream gaps hseq hbare
  have huses : uses = gapRest.map Prod.fst := by
    refine List.map_injective_iff.mpr (fun _ _ => Node.operator.inj) (huses.symm.trans ?_)
    rw [Node.operators_spell, List.map_map]
    rfl
  obtain rfl : es = gapErrors := (errors_of_collect hfold).symm.trans (by decide +kernel)
  subst huses
  have hshorter : [.name "u" .unknown, .operator ⟨"!", { column := some 1 }⟩,
      .name "v" .unknown, .operator ⟨"+", { column := some 2 }⟩] ++ [.name "w" .unknown] <+:
        .name "u" .unknown :: Node.spell gapRest := ⟨Node.spell (gapRest.drop 2), rfl⟩
  exact ⟨hseq, hbare, value, hfold, hstream, hmissing, hbegin _ _ hshorter rfl⟩

end Registry

end OperatorFold
