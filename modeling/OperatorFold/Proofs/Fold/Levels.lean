import OperatorFold.Proofs.Fold.InOrder
import OperatorFold.Proofs.Grouping.SameShape
import OperatorFold.Proofs.Precedence.Reordering

/-! # The levels of the operators decide the shape

A fold looks at the level of each operator and at nothing else: two sequences whose operators fold
at the same levels, one by one, fold to trees of one shape and report the same pairs of places as
incomparable. Names and spans are copied, and operands, which may be trees that look like those that
the fold makes itself, are never opened. So other operands in a sequence come out as other operands
in its fold, and no error knows of them.
-/

namespace OperatorFold

open Reporting Grouping

/-- The elements of a sequence with other operands, which `f` gives by their places, counted from
`k`. -/
def Node.replaceOperands (f : ℕ → Node) : ℕ → List Node → List Node
  | _, [] => []
  | k, [_] => [f k]
  | k, _ :: op :: rest => f k :: op :: replaceOperands f (k + 1) rest

/-- Other operands come into a row and into what follows it one after another, so that those behind
count on. -/
theorem Node.replaceOperands_append (f : ℕ → Node) (k : ℕ) (first : Node)
    (rest : List (OperatorUse × Node)) (op : Node) (more : List Node) :
    replaceOperands f k ((first :: spell rest) ++ op :: more) =
      replaceOperands f k (first :: spell rest) ++
        op :: replaceOperands f (k + rest.length + 1) more := by
  induction rest generalizing k first with
  | nil => rfl
  | cons entry rest ih =>
    obtain ⟨use, n⟩ := entry
    have hplace : k + (rest.length + 1) + 1 = k + 1 + rest.length + 1 := by omega
    rw [spell_cons, List.length_cons, hplace]
    exact congrArg (f k :: .operator use :: ·) (ih (k + 1) n)

/-- The operands of a grouping are those of its elements. -/
theorem Grouping.elements_replaceOperands (f : ℕ → Node) (k : ℕ)
    (t : Grouping Node OperatorUse) :
    (t.replaceOperands f k).elements = Node.replaceOperands f k t.elements := by
  induction t generalizing k with
  | operand n => rfl
  | operation left use right ihl ihr =>
    have hlength : left.rest.length = left.operators.length := by
      rw [operators_eq, List.length_map]
    rw [elements, left.elements_eq, Node.replaceOperands_append, hlength, ← left.elements_eq, ← ihl,
      ← ihr]
    rfl

namespace Registry

variable {r : Registry} {p p' o o' : OperatorUse}

/-! ## Operators of one level -/

/-- Whether operators combine is decided by their levels. -/
theorem combines_congr (hp : r.level p = r.level p') (ho : r.level o = r.level o') :
    r.combines p o = r.combines p' o' := by
  rw [combines_eq, combines_eq, hp, ho]

theorem conflicting_congr (hp : r.level p = r.level p') (ho : r.level o = r.level o') :
    r.conflicting p o = r.conflicting p' o' := by
  rw [conflicting, conflicting, hp, ho]

/-! ## Reported pairs -/

/-- Two operators that are reported as incomparable: their places in the sequence and the names of
their levels. -/
structure ReportedPair where
  left : ℕ
  leftGroup : String
  right : ℕ
  rightGroup : String

/-- The error about a pair among some operators. -/
def ReportedPair.IsError (uses : List OperatorUse) (pair : ReportedPair) (e : PrecedenceError) :
    Prop :=
  ∃ p o, uses[pair.left]? = some p ∧ uses[pair.right]? = some o ∧
    e = .incomparableOperators p pair.leftGroup o pair.rightGroup

/-- The pairs that are reported of a grouping. -/
def reportedPairs (r : Registry) (t : Grouping Node OperatorUse) : List ReportedPair :=
  (t.numberedConflicts r.conflicting).map fun pair =>
    ⟨pair.1.2, (r.level pair.1.1).name, pair.2.2, (r.level pair.2.1).name⟩

/-- The pairs that are reported are those of the conflicts, one by one. -/
theorem isError_reportedPairs (r : Registry) (t : Grouping Node OperatorUse) :
    List.Forall₂ (ReportedPair.IsError t.operators) (r.reportedPairs t)
      ((t.conflicts r.conflicting).map r.incomparable) := by
  have hplace {use : OperatorUse} {k : ℕ} (h : (use, k) ∈ (t.numbered 0).operators) :
      t.operators[k]? = some use := by
    rw [numbered_operators] at h
    exact List.mem_zipIdx_iff_getElem?.mp h
  rw [reportedPairs, ← map_numberedConflicts, List.map_map, List.forall₂_map_left_iff,
    List.forall₂_map_right_iff, List.forall₂_same]
  rintro ⟨⟨p, i⟩, ⟨o, j⟩⟩ hpair
  obtain ⟨hp, ho, -⟩ := of_mem_conflicts hpair
  exact ⟨p, o, hplace hp, hplace ho, rfl⟩

/-- Groupings of the same shape and the same levels have the same pairs reported. -/
theorem reportedPairs_congr {t t' : Grouping Node OperatorUse}
    (h : t.SameShape (fun p p' => r.level p = r.level p') t') :
    r.reportedPairs t = r.reportedPairs t' := by
  have hconflicts : List.Forall₂ _ (t.numberedConflicts r.conflicting)
      (t'.numberedConflicts r.conflicting) :=
    (h.numbered 0).conflicts fun hp _ _ ho => conflicting_congr hp.1 ho.1
  rw [reportedPairs, reportedPairs, ← List.forall₂_eq_eq_eq, List.forall₂_map_left_iff,
    List.forall₂_map_right_iff]
  refine hconflicts.imp fun pair pair' ⟨⟨hp, hi⟩, ho, hj⟩ => ?_
  rw [hp, hi, ho, hj]

/-! ## The errors of the same operators -/

/-- The errors in front of an operator are those of the waiting operators alone, whatever the
operands are. -/
theorem settleErrors_congr {below below' : Waiting Node OperatorUse}
    (hbelow : SameStack (· = ·) below below') (o : OperatorUse) :
    r.settleErrors o below = r.settleErrors o below' := by
  induction hbelow with
  | nil => rfl
  | @cons entry entry' _ _ hentry _ ih => rw [settleErrors, settleErrors, hentry.2, ih]

/-- The errors of a scan do not depend on the operands. -/
theorem scanErrors_congr {rest rest' : List (OperatorUse × Node)}
    (hrest : List.Forall₂ (fun entry entry' => entry.1 = entry'.1) rest rest')
    {below below' : Waiting Node OperatorUse} (hbelow : SameStack (· = ·) below below')
    {t t' : Grouping Node OperatorUse} (ht : t.SameShape (· = ·) t') :
    r.scanErrors rest below t = r.scanErrors rest' below' t' := by
  -- along both rows, with stacks that hold the same operators over whatever operands
  induction hrest generalizing below below' t t' with
  | nil => rfl
  | @cons entry entry' rest rest' ho _ ih =>
    obtain ⟨o, n⟩ := entry
    obtain ⟨o', n'⟩ := entry'
    obtain rfl : o = o' := ho
    have hsettle : SameStack (· = ·) (Grouping.settle r.combines o below t).1
          (Grouping.settle r.combines o below' t').1 ∧
        (Grouping.settle r.combines o below t).2.SameShape (· = ·)
          (Grouping.settle r.combines o below' t').2 :=
      sameShape_settle (fun hp _ _ ho => by rw [hp, ho]) rfl hbelow ht
    obtain ⟨hsettled, hpart⟩ := hsettle
    have hpushed : SameStack (· = ·)
        (((Grouping.settle r.combines o below t).2, o) :: (Grouping.settle r.combines o below t).1)
        (((Grouping.settle r.combines o below' t').2, o) ::
          (Grouping.settle r.combines o below' t').1) := .cons ⟨hpart, rfl⟩ hsettled
    rw [scanErrors, scanErrors, settleErrors_congr hbelow, ih hpushed (.operand n n')]

/-- Two sequences with the same operators, one by one, have the same errors. -/
theorem foldErrors_congr (r : Registry) {t t' : Grouping Node OperatorUse}
    (h : t.operators = t'.operators) :
    r.foldErrors t.first t.rest = r.foldErrors t'.first t'.rest := by
  rw [operators_eq, operators_eq, ← List.forall₂_eq_eq_eq, List.forall₂_map_left_iff,
    List.forall₂_map_right_iff] at h
  exact scanErrors_congr h .nil (.operand t.first t'.first)

/-! ## Two sequences of the same levels -/

/-- A sequence folds to a grouping of its elements, and reports these pairs as incomparable. -/
structure FoldsTo (r : Registry) (elements : List Node) (t : Grouping Node OperatorUse)
    (es : List PrecedenceError) (pairs : List ReportedPair) : Prop where
  collect : (r.foldSequence elements).collect = .ok ⟨t.node, es⟩
  elements_eq : t.elements = elements
  reports : List.Forall₂ (ReportedPair.IsError t.operators) pairs (es.filter (·.isIncomparable))

/-- The elements of a settled grouping fold to it, with its errors and the pairs that they
report. -/
theorem foldsTo_of_settled {t : Grouping Node OperatorUse} (ht : t.Settled r.combines)
    (hbare : Node.bare ∉ t.elements) :
    r.FoldsTo t.elements t (r.foldErrors t.first t.rest) (r.reportedPairs t) := by
  refine ⟨(yields_foldSequence_of_settled ht hbare).collect, rfl, ?_⟩
  rw [filter_foldErrors_of_settled ht]
  exact r.isError_reportedPairs t

/-- **The levels of the operators decide the shape of a fold.** Let the operators of two sequences
fold at the same levels, one by one, whatever their names and whatever the operands. Then the folds
differ only in what stands at each place, and they report the same pairs of places with the same
names of levels. Other operands in a sequence make the same tree over them, with the same errors. -/
theorem foldSequence_sameLevels (r : Registry) {elements elements' : List Node}
    {uses uses' : List OperatorUse} (hseq : Node.sequenceFault elements = none)
    (hseq' : Node.sequenceFault elements' = none) (hbare : Node.bare ∉ elements)
    (hbare' : Node.bare ∉ elements') (huses : Node.operators elements = uses.map .operator)
    (huses' : Node.operators elements' = uses'.map .operator)
    (hlevels : uses.map r.level = uses'.map r.level) :
    ∃ (t t' : Grouping Node OperatorUse) (es es' : List PrecedenceError)
      (pairs : List ReportedPair),
      r.FoldsTo elements t es pairs ∧ r.FoldsTo elements' t' es' pairs ∧
      t.places 0 = t'.places 0 ∧
      ∀ f : ℕ → Node, (∀ k, (f k).isOperator = false ∧ f k ≠ .bare) →
        r.FoldsTo (Node.replaceOperands f 0 elements) (t.replaceOperands f 0) es pairs := by
  obtain ⟨t, _, rfl, ht, -, -⟩ := r.exists_yields_foldSequence hseq hbare
  obtain ⟨t', _, rfl, ht', -, -⟩ := r.exists_yields_foldSequence hseq' hbare'
  -- the operators of the groupings are those of the sequences, so their levels are given
  have hinj : Function.Injective (List.map Node.operator) :=
    List.map_injective_iff.mpr fun _ _ => Node.operator.inj
  obtain rfl : t.operators = uses := hinj (t.operators_elements.symm.trans huses)
  obtain rfl : t'.operators = uses' := hinj (t'.operators_elements.symm.trans huses')
  rw [← List.forall₂_eq_eq_eq, List.forall₂_map_left_iff, List.forall₂_map_right_iff] at hlevels
  have hshape : t.SameShape (fun p p' => r.level p = r.level p') t' :=
    ht.sameShape (fun hp _ _ ho => combines_congr hp ho) ht' hlevels
  refine ⟨t, t', _, r.foldErrors t'.first t'.rest, r.reportedPairs t, foldsTo_of_settled ht hbare,
    ?_, hshape.places_eq 0, fun f hf => ?_⟩
  · rw [reportedPairs_congr hshape]
    exact foldsTo_of_settled ht' hbare'
  · -- other operands leave a settled grouping settled, so it is again the one that is found
    have hother : (t.replaceOperands f 0).Settled r.combines :=
      (settled_replaceOperands f 0 t).mpr ht
    have hover : (t.replaceOperands f 0).OverOperands := by
      intro n hn
      obtain ⟨k, rfl⟩ := mem_operands_replaceOperands f hn
      exact hf k
    have hoperators := operators_replaceOperands f 0 t
    have hsame : t.SameShape (fun p p' => r.level p = r.level p') (t.replaceOperands f 0) := by
      refine ht.sameShape (fun hp _ _ ho => combines_congr hp ho) hother ?_
      rw [hoperators]
      exact List.forall₂_same.mpr fun _ _ => rfl
    rw [← elements_replaceOperands, reportedPairs_congr hsame, foldErrors_congr r hoperators.symm]
    exact foldsTo_of_settled hother hover.not_mem_bare

/-- Declarations with two operators at each level. -/
def doubled : Registry :=
  holding [.group (.declare "sum" .left [] [] false .unknown),
    .group (.declare "product" .left ["sum"] [] false .unknown),
    .group (.declare "apart" .none [] [] false .unknown),
    .operator { name := "+", groupName := some "sum" },
    .operator { name := "-", groupName := some "sum" },
    .operator { name := "*", groupName := some "product" },
    .operator { name := "/", groupName := some "product" },
    .operator { name := "~", groupName := some "apart" },
    .operator { name := "!", groupName := some "apart" }]

/-- What stands behind the first operand of `a + b * c ~ d ~ e`. -/
def plainRest : List (OperatorUse × Node) :=
  [(⟨"+", .unknown⟩, .name "b" .unknown), (⟨"*", .unknown⟩, .name "c" .unknown),
    (⟨"~", .unknown⟩, .name "d" .unknown), (⟨"~", .unknown⟩, .name "e" .unknown)]

/-- The elements of that sequence. -/
def plainChain : List Node := .name "a" .unknown :: Node.spell plainRest

/-- A product, as a fold makes it. -/
def foldedProduct : Node :=
  .binary (.name "p" .unknown) (.operator ⟨"*", .unknown⟩) (.name "q" .unknown) .unknown

/-- Other operators of the same levels; some of the operands are products folded before. -/
def nestedRest : List (OperatorUse × Node) :=
  [(⟨"-", { column := some 1 }⟩, foldedProduct),
    (⟨"/", { column := some 2 }⟩, .name "v" .unknown),
    (⟨"!", { column := some 3 }⟩, foldedProduct),
    (⟨"~", { column := some 4 }⟩, .name "w" .unknown)]

/-- The elements of a sequence that begins with the other one in parentheses. -/
def nestedChain : List Node :=
  .paren (.sequence plainChain .unknown) .unknown :: Node.spell nestedRest

/-- What is reported of it. -/
def nestedErrors : List PrecedenceError :=
  [.incomparableOperators ⟨"/", { column := some 2 }⟩ "product" ⟨"!", { column := some 3 }⟩ "apart",
    .incomparableOperators ⟨"-", { column := some 1 }⟩ "sum" ⟨"!", { column := some 3 }⟩ "apart",
    .incomparableOperators ⟨"!", { column := some 3 }⟩ "apart" ⟨"~", { column := some 4 }⟩ "apart"]

/-- Both sequences fold in one shape, and three pairs at the same places are reported of each. A
folded product may stand for every operand. -/
theorem foldSequence_sameLevels_doubled :
    Node.sequenceFault plainChain = none ∧ Node.sequenceFault nestedChain = none ∧
      Node.bare ∉ plainChain ∧ Node.bare ∉ nestedChain ∧
      (plainRest.map Prod.fst).map doubled.level = (nestedRest.map Prod.fst).map doubled.level ∧
      ∃ (t t' : Grouping Node OperatorUse) (es : List PrecedenceError)
        (pairs : List ReportedPair),
        doubled.FoldsTo plainChain t es pairs ∧
        doubled.FoldsTo nestedChain t' nestedErrors pairs ∧
        t.places 0 = t'.places 0 ∧ pairs.length = 3 ∧
        doubled.FoldsTo (Node.replaceOperands (fun _ => foldedProduct) 0 plainChain)
          (t.replaceOperands (fun _ => foldedProduct) 0) es pairs := by
  have hseq : Node.sequenceFault plainChain = none := by decide
  have hseq' : Node.sequenceFault nestedChain = none := by decide
  have hbare : Node.bare ∉ plainChain := by simp [plainChain, plainRest, Node.spell]
  have hbare' : Node.bare ∉ nestedChain := by
    simp [nestedChain, nestedRest, foldedProduct, Node.spell]
  have hlevels : (plainRest.map Prod.fst).map doubled.level =
      (nestedRest.map Prod.fst).map doubled.level := by decide +kernel
  obtain ⟨t, t', es, es', pairs, hplain, hnested, hplaces, hother⟩ :=
    foldSequence_sameLevels doubled hseq hseq' hbare hbare' rfl rfl hlevels
  obtain rfl : es' = nestedErrors :=
    (errors_of_collect hnested.collect).symm.trans (by decide +kernel)
  have hproduct : foldedProduct.isOperator = false ∧ foldedProduct ≠ .bare := by
    simp [foldedProduct, Node.isOperator]
  exact ⟨hseq, hseq', hbare, hbare', hlevels, t, t', es, pairs, hplain, hnested, hplaces,
    hnested.reports.length_eq, hother _ fun _ => hproduct⟩

end Registry

end OperatorFold
