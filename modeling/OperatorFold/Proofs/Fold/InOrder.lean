import OperatorFold.Proofs.Fold.Recursion
import OperatorFold.Proofs.Tree.Render

/-! # A fold keeps the order of what it folds

The fold of a sequence has the elements of the sequence below it, in their order, and makes one
operation for each operator among them; an operation stands where the first operand below it does.
So whatever is read off a tree from left to right is the same before and after a fold. The text of
a tree is read off so.
-/

namespace OperatorFold

open Reporting

/-! ## The operations of a grouping -/

namespace Grouping

section

variable {α β : Type} {s t : Grouping α β}

/-- The operations of a grouping, each between those of its two parts. -/
def operations : Grouping α β → List (Grouping α β)
  | operand _ => []
  | operation left op right => left.operations ++ operation left op right :: right.operations

/-- A grouping has as many operations as operators. -/
theorem length_operations (t : Grouping α β) : t.operations.length = t.operators.length := by
  induction t with
  | operand a => rfl
  | operation left op right ihl ihr =>
    rw [operations, operators, List.length_append, List.length_append, List.length_cons,
      List.length_cons, ihl, ihr]

/-- Every operation of a grouping is a part of it. -/
theorem of_mem_operations (h : s ∈ t.operations) :
    (∃ left op right, s = operation left op right) ∧ s.operands ⊆ t.operands := by
  induction t with
  | operand a => cases h
  | operation left op right ihl ihr =>
    rw [operations, List.mem_append, List.mem_cons] at h
    rcases h with h | rfl | h
    · exact ⟨(ihl h).1, fun a ha => List.mem_append_left _ ((ihl h).2 ha)⟩
    · exact ⟨⟨left, op, right, rfl⟩, List.Subset.refl _⟩
    · exact ⟨(ihr h).1, fun a ha => List.mem_append_right _ ((ihr h).2 ha)⟩

end

variable {s t : Grouping Node OperatorUse}

theorem Placed.mono (h : t.Placed) (hsub : s.operands ⊆ t.operands) : s.Placed :=
  fun n hn => h n (hsub hn)

/-- A grouping stands where its first operand stands. -/
theorem Placed.span_first (h : t.Placed) : t.node.span? = t.first.span? := by
  induction t with
  | operand n => rfl
  | operation left use right ihl _ =>
    have hleft : left.Placed := fun n hn => h n (List.mem_append_left _ hn)
    rw [first, ← ihl hleft, hleft.span]
    rfl

end Grouping

/-- The operators of a spelled row stand at its odd positions. -/
theorem Node.operators_spell (first : Node) (rest : List (OperatorUse × Node)) :
    operators (first :: spell rest) = rest.map (.operator ·.1) := by
  induction rest generalizing first with
  | nil => rfl
  | cons entry rest ih => exact congrArg (Node.operator entry.1 :: ·) (ih entry.2)

/-- The operators of a sequence are those of any grouping of its elements. -/
theorem Grouping.operators_elements (t : Grouping Node OperatorUse) :
    Node.operators t.elements = t.operators.map .operator := by
  rw [elements_eq, Node.operators_spell, operators_eq, List.map_map]
  rfl

/-! ## The text of a fold -/

/-- The text of a grouping is that of its elements in a row. -/
theorem Grouping.render_node {t : Grouping Node OperatorUse} {texts : List String}
    (h : Node.renderAll t.elements = .ok texts) :
    t.node.render = .ok (" ".intercalate texts) := by
  induction t generalizing texts with
  | operand n =>
    obtain ⟨text, rest, hn, hrest, rfl⟩ := Node.renderAll_cons_eq_ok.mp h
    cases hrest
    rw [String.intercalate_singleton]
    exact hn
  | operation left use right ihl ihr =>
    obtain ⟨ltexts, rest, hleft, hrest, rfl⟩ := Node.exists_of_renderAll_append h
    obtain ⟨_, rtexts, huse, hright, rfl⟩ := Node.renderAll_cons_eq_ok.mp hrest
    cases huse
    -- neither part is empty, so one space stands on each side of the operator
    have hl : ltexts ≠ [] := by
      rw [elements_eq] at hleft
      exact Node.ne_nil_of_renderAll hleft
    have hr : rtexts ≠ [] := by
      rw [elements_eq] at hright
      exact Node.ne_nil_of_renderAll hright
    rw [String.intercalate_append_of_ne_nil hl (List.cons_ne_nil _ _),
      String.intercalate_cons_of_ne_nil hr, node, Node.render, ihl hleft, ihr hright]
    show Except.ok (" ".intercalate ltexts ++ " " ++ use.name ++ " " ++ " ".intercalate rtexts) = _
    simp only [String.append_assoc]

namespace Registry

variable {r : Registry} {n m : Node} {nodes ms : List Node} {es : List PrecedenceError}
  {text : String} {texts : List String}

/-- Nodes with texts fold to nodes with the same texts, if each does. -/
theorem FoldsAll.renderAll (h : r.FoldsAll nodes ms es)
    (hrender : ∀ n ∈ nodes, ∀ m es text, r.Folds n m es → n.render = .ok text →
      m.render = .ok text)
    (htexts : Node.renderAll nodes = .ok texts) : Node.renderAll ms = .ok texts := by
  induction h generalizing texts with
  | nil => exact htexts
  | cons hn _ ih =>
    obtain ⟨text, rest, hfirst, hrest, rfl⟩ := Node.renderAll_cons_eq_ok.mp htexts
    refine Node.renderAll_cons_eq_ok.mpr ⟨text, rest, ?_, ih ?_ hrest, rfl⟩
    · exact hrender _ List.mem_cons_self _ _ _ hn hfirst
    · intro n hn
      exact hrender n (List.mem_cons_of_mem _ hn)

/-- A node that is no sequence has the same text over what its children fold to. -/
theorem FoldsAll.render_withChildren (h : r.FoldsAll n.children ms es)
    (hrender : ∀ kid ∈ n.children, ∀ m es text, r.Folds kid m es → kid.render = .ok text →
      m.render = .ok text)
    (hseq : n.isSequence = false) (hm : n.withChildren ms = .ok m) (htext : n.render = .ok text) :
    m.render = .ok text := by
  cases n with
  | paren inner span =>
    obtain ⟨inside, hinner, rfl⟩ := Node.of_render_paren htext
    obtain _ | ⟨hfolds, _ | _⟩ := h
    cases hm
    rw [Node.render, hrender inner List.mem_cons_self _ _ _ hfolds hinner]
    rfl
  | sequence elements span => cases hseq
  | binary left op right span =>
    obtain ⟨use, l, t, rfl, hleft, hright, rfl⟩ := Node.of_render_binary htext
    obtain _ | ⟨hl, _ | ⟨ho, _ | ⟨ht, _ | _⟩⟩⟩ := h
    cases hm
    have hleft := hrender left List.mem_cons_self _ _ _ hl hleft
    have hright := hrender right (List.mem_of_getLast? rfl) _ _ _ ht hright
    -- an operator in its place is kept
    rw [ho.operator, Node.render, hleft, hright]
    rfl
  | statement expr span =>
    obtain _ | ⟨hfolds, _ | _⟩ := h
    cases hm
    rw [Node.render] at htext ⊢
    exact hrender expr List.mem_cons_self _ _ _ hfolds htext
  | sourceFile items file span => cases htext
  | _ =>
    cases hm
    exact htext

/-- A tree with a text folds to a tree with the same text. -/
theorem Folds.render (h : r.Folds n m es) (htext : n.render = .ok text) :
    m.render = .ok text := by
  induction n using Node.children_induction generalizing m es text with
  | step n ih =>
    obtain ⟨ms, es₁, es₂, hall, hbecomes, -⟩ := h.inv
    cases hbecomes with
    | sequence hfold =>
      obtain ⟨texts, htexts, rfl⟩ := Node.of_render_sequence htext
      obtain ⟨t, rfl, rfl⟩ := (r.ends_foldSequence ms).of_yields hfold
      refine t.render_node (hall.renderAll ?_ htexts)
      exact fun kid hkid _ _ _ hfolds hrender => ih kid hkid hfolds hrender
    | other hseq hm =>
      refine hall.render_withChildren ?_ hseq hm htext
      exact fun kid hkid _ _ _ hfolds hrender => ih kid hkid hfolds hrender

/-- **A fold loses, doubles and moves nothing.** However many errors it reports, as long as none of
them ends the run, the fold of a sequence is a tree over the very elements of the sequence, in their
order. It makes one operation for each operator, and each of them has the span of the first operand
below it. So a tree with a text folds to a tree with the same text. -/
theorem foldSequence_inOrder (r : Registry) :
    (∀ elements, Node.sequenceFault elements = none → .bare ∉ elements →
      ∃ (t : Grouping Node OperatorUse) (es : List PrecedenceError),
        (∀ (limit : Limit) (j : Journal), limit.Allows (j.errors.length + es.length) →
          ∃ j', r.foldSequence elements limit j = (.ok t.node, j') ∧
            j'.errors = j.errors ++ es) ∧
        t.elements = elements ∧
        t.operations.length = (Node.operators elements).length ∧
        ∀ s ∈ t.operations, ∃ left op right span, s = .operation left op right ∧
          s.node = .binary left.node (.operator op) right.node span ∧
          s.first.span? = some span) ∧
      ∀ (n : Node) text, n.Alternates → n.render = .ok text →
        ∃ outcome, (r.foldTree n).collect = .ok outcome ∧
          outcome.value.node.render = .ok text := by
  constructor
  · intro elements hseq hbare
    obtain ⟨t, es, rfl, -, hfold, -⟩ := r.exists_yields_foldSequence hseq hbare
    have hplaced : t.Placed := fun n hn => (Grouping.overOperands_of_elements hseq hbare n hn).2
    refine ⟨t, es, fun limit j hlimit => hfold.apply hlimit, rfl, ?_, ?_⟩
    · rw [t.operators_elements, List.length_map, t.length_operations]
    · -- an operation stands where its first operand does, as every part of a placed grouping
      intro s hs
      obtain ⟨⟨left, op, right, rfl⟩, hsub⟩ := Grouping.of_mem_operations hs
      refine ⟨left, op, right, _, rfl, rfl, ?_⟩
      exact (hplaced.mono hsub).span_first.symm
  · intro n text halternates htext
    obtain ⟨m, es, hfolds, -⟩ := r.exists_folds (Node.wellFormed_of_render htext halternates)
    exact ⟨_, hfolds.yields_foldTree.collect, hfolds.render htext⟩

/-- The statement `(v + w * x ~ y ~ z) + u`. -/
def chainStatement : Node :=
  .statement (.sequence [.paren (.sequence unrelatedChain .unknown) .unknown,
    .operator ⟨"+", .unknown⟩, .name "u" .unknown] .unknown) .unknown

/-- The chain folds to four operations under a limit that its three errors do not reach, and the
statement around it keeps its text. -/
theorem foldSequence_chainStatement :
    Node.sequenceFault unrelatedChain = none ∧ .bare ∉ unrelatedChain ∧
      (∃ (t : Grouping Node OperatorUse) (j : Journal),
        unrelated.foldSequence unrelatedChain (some 4) {} = (.ok t.node, j) ∧
        j.errors.length = 3 ∧ t.elements = unrelatedChain ∧ t.operations.length = 4) ∧
      chainStatement.Alternates ∧
      chainStatement.render = .ok "(v + w * x ~ y ~ z) + u" ∧
      ∃ outcome, (unrelated.foldTree chainStatement).collect = .ok outcome ∧
        outcome.value.node.render = .ok "(v + w * x ~ y ~ z) + u" := by
  have hseq : Node.sequenceFault unrelatedChain = none := by decide
  have hbare : .bare ∉ unrelatedChain := by simp [unrelatedChain]
  have hstatement : chainStatement.WellFormed := by
    simp [chainStatement, unrelatedChain, Node.sequenceFault, Node.misplacedFrom, Node.isOperator]
  have htext : chainStatement.render = .ok "(v + w * x ~ y ~ z) + u" := by decide +kernel
  obtain ⟨hsequences, htrees⟩ := foldSequence_inOrder unrelated
  obtain ⟨t, es, hrun, helements, hcount, -⟩ := hsequences unrelatedChain hseq hbare
  have hthree : es.length = 3 := by
    obtain ⟨j, hall, herrors⟩ := hrun none {} (Limit.allows_none _)
    have hlength : (unrelated.foldSequence unrelatedChain none {}).2.errors.length = 3 := by
      decide +kernel
    rw [hall, herrors] at hlength
    exact hlength
  have hlimit : Limit.Allows (some 4) (({} : Journal).errors.length + es.length) := by
    rw [hthree]
    exact Limit.allows_some.mpr (by decide)
  obtain ⟨j, hall, herrors⟩ := hrun (some 4) {} hlimit
  refine ⟨hseq, hbare, ⟨t, j, hall, ?_, helements, hcount⟩, hstatement.alternates, htext,
    htrees chainStatement _ hstatement.alternates htext⟩
  rw [herrors]
  exact hthree

end Registry

end OperatorFold
