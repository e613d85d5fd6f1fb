import OperatorFold.Proofs.Fold.Shape
import OperatorFold.Proofs.Fold.Tree
import OperatorFold.Proofs.Grouping.Context

/-! # Parentheses around what a fold grouped

Take a part of a fold and put parens around its elements in the sequence. The part folds by itself,
since parts of settled groupings are settled, and the sequence folds around the parens as it did
around the part, since a single operand only shortens spines. So the tree stays the same up to the
new parens, and the conflicts are some of the old ones. With parens around every part no operator
has another one on its spines, and no conflict is left.
-/

namespace OperatorFold

open Reporting

namespace Grouping

namespace Context

/-- The elements in front of the hole. -/
def before : Context Node OperatorUse → List Node
  | hole => []
  | inLeft inner _ _ => inner.before
  | inRight left op inner => left.elements ++ .operator op :: inner.before

/-- The elements behind the hole. -/
def after : Context Node OperatorUse → List Node
  | hole => []
  | inLeft inner op right => inner.after ++ .operator op :: right.elements
  | inRight _ _ inner => inner.after

/-- The tree with a node in the place of the part. An operation stands where its left part stands,
so its span may come from the new node. -/
def place : Context Node OperatorUse → Node → Node
  | hole, n => n
  | inLeft inner op right, n =>
    .binary (inner.place n) (.operator op) right.node ((inner.place n).span?.getD .unknown)
  | inRight left op inner, n =>
    .binary left.node (.operator op) (inner.place n) (left.node.span?.getD .unknown)

/-- The elements around a part, with those of the part in parens. -/
def enclosed (c : Context Node OperatorUse) (s : Grouping Node OperatorUse) (inner outer : Span) :
    List Node :=
  c.before ++ .paren (.sequence s.elements inner) outer :: c.after

/-- A part keeps its elements together in the whole. -/
theorem elements_fill (c : Context Node OperatorUse) (t : Grouping Node OperatorUse) :
    (c.fill t).elements = c.before ++ t.elements ++ c.after := by
  induction c with
  | hole => rw [fill, before, after, List.nil_append, List.append_nil]
  | inLeft inner op right ih =>
    simp only [fill, elements, ih, before, after, List.append_assoc]
  | inRight left op inner ih =>
    simp only [fill, elements, ih, before, after, List.append_assoc, List.cons_append]

/-- An operand in the place of a part is one element in the place of its elements. -/
theorem elements_fill_operand (c : Context Node OperatorUse) (n : Node) :
    (c.fill (operand n)).elements = c.before ++ n :: c.after := by
  rw [elements_fill, elements, List.append_assoc, List.singleton_append]

/-- The tree of the whole is the tree of the part, put in its place. -/
theorem node_fill (c : Context Node OperatorUse) (t : Grouping Node OperatorUse) :
    (c.fill t).node = c.place t.node := by
  induction c with
  | hole => rfl
  | inLeft inner op right ih => rw [fill, node, ih, place]
  | inRight left op inner ih => rw [fill, node, ih, place]

end Context

variable {t s : Grouping Node OperatorUse} {c : Context Node OperatorUse}

theorem OverOperands.of_fill (h : (c.fill s).OverOperands) : s.OverOperands :=
  fun n hn => h n (c.operands_subset_fill s hn)

/-- With parentheses in the place of a part, the whole stays over operands. -/
theorem OverOperands.fill_paren (h : (c.fill s).OverOperands) (n : Node) (span : Span) :
    (c.fill (operand (.paren n span))).OverOperands := by
  intro m hm
  rcases List.mem_cons.mp (c.operands_fill_operand_subset s _ hm) with rfl | hm
  · exact ⟨rfl, nofun⟩
  · exact h m hm

/-! ## All parens -/

/-- The spelling of a grouping with parens around every operation. Where a sequence and its parens
stand is left open. -/
def spelled (inner outer : Grouping Node OperatorUse → Span) : Grouping Node OperatorUse → Node
  | operand n => n
  | operation left op right =>
    .paren (.sequence [left.spelled inner outer, .operator op, right.spelled inner outer]
      (inner (operation left op right))) (outer (operation left op right))

/-- The tree of a grouping with parens around every operation. -/
def parenthesized (outer : Grouping Node OperatorUse → Span) : Grouping Node OperatorUse → Node
  | operand n => n
  | operation left op right =>
    .paren (.binary (left.parenthesized outer) (.operator op) (right.parenthesized outer)
      ((left.parenthesized outer).span?.getD .unknown)) (outer (operation left op right))

/-- A part in parentheses is an operand. -/
theorem OverOperands.parenthesized (h : t.OverOperands)
    (outer : Grouping Node OperatorUse → Span) :
    (t.parenthesized outer).isOperator = false ∧ t.parenthesized outer ≠ .bare := by
  cases t with
  | operand n => exact h n List.mem_cons_self
  | operation left op right => exact ⟨rfl, nofun⟩

end Grouping

namespace Registry

open Grouping

variable {r : Registry} {t s : Grouping Node OperatorUse} {c : Context Node OperatorUse}
  {nodes : List Node} {op : OperatorUse} {es : List PrecedenceError}

/-- Nodes that fold to the elements of a settled grouping form a sequence that folds to it. -/
theorem FoldsAll.folds_settled (h : r.FoldsAll nodes t.elements es) (ht : t.Settled r.combines)
    (hover : t.OverOperands) (span : Span) :
    ∃ es', r.Folds (.sequence nodes span) t.node (es ++ es') ∧
      es'.filter (·.isIncomparable) = (t.conflicts r.conflicting).map r.incomparable := by
  have hfold := yields_foldSequence_of_settled ht hover.not_mem_bare
  exact ⟨_, h.folds_sequence (fun _ => hover.sequenceFault) hfold, filter_foldErrors_of_settled ht⟩

/-- Parentheses fold inside and stay. -/
theorem Folds.paren {n m : Node} (h : r.Folds n m es) (span : Span) :
    r.Folds (.paren n span) (.paren m span) es := by
  rw [← List.append_nil es]
  exact (FoldsAll.cons h .nil).folds rfl rfl

/-- A statement folds inside and stays. -/
theorem Folds.statement {n m : Node} (h : r.Folds n m es) (span : Span) :
    r.Folds (.statement n span) (.statement m span) es := by
  rw [← List.append_nil es]
  exact (FoldsAll.cons h .nil).folds rfl rfl

/-- A sequence with parens around a part of its settled grouping folds to this grouping, with parens
around the part. -/
theorem folds_enclosed (ht : (c.fill s).Settled r.combines) (hover : (c.fill s).OverOperands)
    (hfree : ∀ n ∈ (c.fill s).elements, n.containsSequence = false) (inner outer span : Span) :
    ∃ es, r.Folds (.sequence (c.enclosed s inner outer) span) (c.place (.paren s.node outer)) es ∧
      (es.filter (·.isIncomparable)).Subperm
        (((c.fill s).conflicts r.conflicting).map r.incomparable) := by
  rw [Context.elements_fill] at hfree
  have hkept (n : Node) (hn : n ∈ c.before ++ s.elements ++ c.after) : r.Folds n n [] :=
    r.folds_of_not_containsSequence n (hfree n hn)
  have hpart : r.FoldsAll s.elements s.elements [] := by
    apply foldsAll_of_forall
    intro n hn
    exact hkept n (List.mem_append_left _ (List.mem_append_right _ hn))
  have hbefore : r.FoldsAll c.before c.before [] := by
    apply foldsAll_of_forall
    intro n hn
    exact hkept n (List.mem_append_left _ (List.mem_append_left _ hn))
  have hafter : r.FoldsAll c.after c.after [] := by
    apply foldsAll_of_forall
    intro n hn
    exact hkept n (List.mem_append_right _ hn)
  -- the part by itself, then the sequence around it
  obtain ⟨es₁, hs, herrors₁⟩ := hpart.folds_settled (c.settled_part ht) hover.of_fill inner
  have hall := hbefore.append (.cons (hs.paren outer) hafter)
  rw [← Context.elements_fill_operand c (.paren s.node outer)] at hall
  obtain ⟨es₂, houter, herrors₂⟩ := hall.folds_settled
    (c.settled_fill_operand ht (.paren s.node outer)) (hover.fill_paren s.node outer) span
  rw [Context.node_fill] at houter
  refine ⟨_, houter, ?_⟩
  simp only [List.nil_append, List.append_nil, List.filter_append, herrors₁, herrors₂]
  rw [← List.map_append]
  obtain ⟨l, hperm, hsub⟩ := c.conflicts_fill_subperm s (.paren s.node outer)
  exact ⟨l.map r.incomparable, hperm.map _, hsub.map _⟩

/-- A single operator has nothing to be compared with. -/
theorem folds_single {left right l m : Node} {es' : List PrecedenceError}
    (hl : r.Folds left l es) (hr : r.Folds right m es')
    (hover : (operation (operand l) op (operand m)).OverOperands) (span : Span) :
    ∃ more, r.Folds (.sequence [left, .operator op, right] span)
        (.binary l (.operator op) m (l.span?.getD .unknown)) more ∧
      more.filter (·.isIncomparable) =
        es.filter (·.isIncomparable) ++ es'.filter (·.isIncomparable) := by
  have huse : r.Folds (.operator op) (.operator op) [] := r.folds_leaf rfl rfl
  have hall : r.FoldsAll [left, .operator op, right]
      (operation (operand l) op (operand m)).elements (es ++ ([] ++ (es' ++ []))) :=
    .cons hl (.cons huse (.cons hr .nil))
  obtain ⟨own, hfold, herrors⟩ := hall.folds_settled ⟨nofun, nofun, trivial, trivial⟩ hover span
  have hnone : (operation (operand l) op (operand m)).conflicts r.conflicting = [] := rfl
  refine ⟨_, hfold, ?_⟩
  simp only [List.filter_append, herrors, hnone, List.map_nil, List.append_nil, List.nil_append]

/-- With parens around every operation a spelling folds to the grouping that it spells, and no two
operators are compared. -/
theorem folds_spelled (hover : t.OverOperands)
    (hfree : ∀ n ∈ t.operands, n.containsSequence = false)
    (inner outer : Grouping Node OperatorUse → Span) :
    ∃ es, r.Folds (t.spelled inner outer) (t.parenthesized outer) es ∧
      es.filter (·.isIncomparable) = [] := by
  induction t with
  | operand n => exact ⟨[], r.folds_of_not_containsSequence n (hfree n List.mem_cons_self), rfl⟩
  | operation left op right ihl ihr =>
    have hoverl : left.OverOperands := fun n hn => hover n (List.mem_append_left _ hn)
    have hoverr : right.OverOperands := fun n hn => hover n (List.mem_append_right _ hn)
    obtain ⟨es₁, hl, herrors₁⟩ := ihl hoverl fun n hn => hfree n (List.mem_append_left _ hn)
    obtain ⟨es₂, hr, herrors₂⟩ := ihr hoverr fun n hn => hfree n (List.mem_append_right _ hn)
    -- once both sides have folded, the operator stands between two operands
    have hover' : (operation (operand (left.parenthesized outer)) op
        (operand (right.parenthesized outer))).OverOperands := by
      intro n hn
      rcases List.mem_pair.mp hn with rfl | rfl
      · exact hoverl.parenthesized outer
      · exact hoverr.parenthesized outer
    obtain ⟨es, hfold, herrors⟩ := folds_single hl hr hover' (inner (operation left op right))
    refine ⟨es, hfold.paren (outer (operation left op right)), ?_⟩
    rw [herrors, herrors₁, herrors₂]
    rfl

/-- **Parentheses around what the fold grouped change nothing.** Whatever the registry, take a
sequence without sequences in its operands, and any part of its fold. With parens around the
elements of this part, the sequence folds to the same tree with parens around the part, and the
pairs reported as incomparable are some of those reported before. With parens around every part, it
folds to the same tree with parens around every operation, and no pair is reported. -/
theorem foldTree_enclosed (r : Registry) {elements : List Node}
    (hseq : Node.sequenceFault elements = none) (hbare : .bare ∉ elements)
    (hfree : ∀ n ∈ elements, n.containsSequence = false) :
    ∃ (t : Grouping Node OperatorUse) (es : List PrecedenceError),
      (r.foldSequence elements).collect = .ok ⟨t.node, es⟩ ∧
      (t.elements = elements ∧ t.Settled r.combines) ∧
      (∀ (c : Context Node OperatorUse) (s : Grouping Node OperatorUse), c.fill s = t →
        elements = c.before ++ s.elements ++ c.after ∧ t.node = c.place s.node ∧
        ∀ inner outer span, Node.sequenceFault s.elements = none ∧
          Node.sequenceFault (c.enclosed s inner outer) = none ∧
          ∃ outcome, (r.foldTree (.sequence (c.enclosed s inner outer) span)).collect =
              .ok outcome ∧
            outcome.value.node = c.place (.paren s.node outer) ∧
            (outcome.errors.filter (·.isIncomparable)).Subperm (es.filter (·.isIncomparable))) ∧
      ∀ inner outer, ∃ outcome, (r.foldTree (t.spelled inner outer)).collect = .ok outcome ∧
        outcome.value.node = t.parenthesized outer ∧
        ∀ e ∈ outcome.errors, e.isIncomparable = false := by
  obtain ⟨t, es, rfl, hsettled, hfold, herrors⟩ := r.exists_yields_foldSequence hseq hbare
  have hover : t.OverOperands := overOperands_of_elements hseq hbare
  refine ⟨t, es, hfold.collect, ⟨rfl, hsettled⟩, ?_, fun inner outer => ?_⟩
  · -- one part is put in parentheses, wherever it stands in the whole
    rintro c s rfl
    refine ⟨c.elements_fill s, c.node_fill s, fun inner outer span => ?_⟩
    have henclosed := (hover.fill_paren (.sequence s.elements inner) outer).sequenceFault
    rw [Context.elements_fill_operand] at henclosed
    obtain ⟨es', hfolds, hsub⟩ := folds_enclosed hsettled hover hfree inner outer span
    refine ⟨hover.of_fill.sequenceFault, henclosed, _, hfolds.yields_foldTree.collect, rfl, ?_⟩
    rw [herrors]
    exact hsub
  · -- every operation is put in parentheses, so each sequence has one operator and nothing to
    -- compare
    have hoperands : ∀ n ∈ t.operands, n.containsSequence = false :=
      fun n hn => hfree n (mem_elements.mpr (.inl hn))
    obtain ⟨es', hfolds, hnone⟩ := folds_spelled (r := r) hover hoperands inner outer
    refine ⟨_, hfolds.yields_foldTree.collect, rfl, ?_⟩
    simpa only [List.filter_eq_nil_iff, Bool.not_eq_true] using hnone

/-- The part `w * x` of the fold of `v + w * x ~ y ~ z`. -/
def productPart : Grouping Node OperatorUse :=
  .operation (.operand (.name "w" .unknown)) ⟨"*", .unknown⟩ (.operand (.name "x" .unknown))

/-- What is around that part. -/
def productContext : Context Node OperatorUse :=
  .inLeft (.inLeft (.inRight (.operand (.name "v" .unknown)) ⟨"+", .unknown⟩ .hole)
    ⟨"~", .unknown⟩ (.operand (.name "y" .unknown))) ⟨"~", .unknown⟩ (.operand (.name "z" .unknown))

/-- The three conflicts of `v + w * x ~ y ~ z` do not keep `v + (w * x) ~ y ~ z` from the same
tree. -/
theorem foldTree_productPart :
    Node.sequenceFault unrelatedChain = none ∧ .bare ∉ unrelatedChain ∧
      (∀ n ∈ unrelatedChain, n.containsSequence = false) ∧
      unrelatedChain = productContext.before ++ productPart.elements ++ productContext.after ∧
      (unrelated.foldSequence unrelatedChain).value = productContext.place productPart.node ∧
      ∃ outcome,
        (unrelated.foldTree
          (.sequence (productContext.enclosed productPart .unknown .unknown) .unknown)).collect =
            .ok outcome ∧
        outcome.value.node = productContext.place (.paren productPart.node .unknown) ∧
        (outcome.errors.filter (·.isIncomparable)).Subperm unrelatedPairs := by
  have hseq : Node.sequenceFault unrelatedChain = none := by decide
  have hbare : Node.bare ∉ unrelatedChain := by simp [unrelatedChain]
  have hfree : ∀ n ∈ unrelatedChain, n.containsSequence = false := by decide +kernel
  obtain ⟨t, es, hrun, ⟨helements, hsettled⟩, hparts, -⟩ :=
    foldTree_enclosed unrelated hseq hbare hfree
  -- the grouping of the fold is the settled one, which can be written down and checked
  have hproduct : (productContext.fill productPart).Settled unrelated.combines := by decide +kernel
  have ht : productContext.fill productPart = t :=
    hproduct.eq_of_elements_eq hsettled helements.symm
  obtain ⟨hsplit, hnode, henclosed⟩ := hparts productContext productPart ht
  obtain ⟨-, -, outcome, hcollect, hplace, hsub⟩ := henclosed .unknown .unknown .unknown
  have hvalue : (unrelated.foldSequence unrelatedChain).value = t.node :=
    Reporting.value_of_collect hrun
  have herrors : (unrelated.foldSequence unrelatedChain).errors = es :=
    Reporting.errors_of_collect hrun
  refine ⟨hseq, hbare, hfree, hsplit, hvalue.trans hnode, outcome, hcollect, hplace, ?_⟩
  have hpairs : es.filter (·.isIncomparable) = unrelatedPairs := by
    rw [← herrors]
    decide +kernel
  rw [← hpairs]
  exact hsub

end Registry

end OperatorFold
