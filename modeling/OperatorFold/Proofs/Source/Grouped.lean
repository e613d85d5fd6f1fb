import OperatorFold.Proofs.Fold.InOrder
import OperatorFold.Proofs.Fold.Parentheses
import OperatorFold.Proofs.Fold.Transfer
import OperatorFold.Proofs.Source.Statements

/-! # Grouped texts

The grouped text of a folded expression has every operation in parentheses. It is the text of a tree
that a source can spell (`Node.spelledOut`), in which every sequence is one operator between two
operands, in parentheses of its own (`Node.Explicit`). There a fold has nothing to decide, whatever
the registry: the tree folds to one with the same grouped text (`Explicit.exists_folds`). So a
grouped text means the same with any declarations, and with none.
-/

namespace OperatorFold

open Source

namespace Node

/-! ## Folded expressions -/

/-- The trees to which expressions of a source fold. -/
inductive GroupShaped : Node → Prop
  | name {ident : String} {span : Span} (h : isName ident = true) : GroupShaped (.name ident span)
  | integer {text : String} {span : Span} (h : isInteger text = true) :
      GroupShaped (.integer text span)
  | paren {inner : Node} {span : Span} (h : GroupShaped inner) : GroupShaped (.paren inner span)
  | binary {left right : Node} {use : OperatorUse} {span : Span} (hleft : GroupShaped left)
      (huse : isOperatorName use.name = true) (hright : GroupShaped right) :
      GroupShaped (.binary left (.operator use) right span)

/-- Whether a node is a folded operation. -/
def isOperation : Node → Bool
  | binary .. => true
  | _ => false

/-- Whether a node is a name or a literal, or stands in parentheses. -/
def isClosed : Node → Bool
  | name .. | integer .. | paren .. => true
  | _ => false

/-- What closes itself is no operation. -/
theorem isOperation_of_isClosed {n : Node} (h : n.isClosed = true) : n.isOperation = false := by
  cases n with
  | binary => cases h
  | _ => rfl

theorem isOperand_of_isClosed {n : Node} (h : n.isClosed = true) :
    n.isOperator = false ∧ n ≠ .bare := by
  cases n with
  | name | integer | paren => exact ⟨rfl, nofun⟩
  | _ => cases h

/-- The tree of the grouped text: every operation becomes a sequence in parentheses, in the place of
those that it had around it. -/
def spelledOut : Node → Node
  | binary left op right span => paren (sequence [left.spelledOut, op, right.spelledOut] span) span
  | paren inner span =>
    if inner.isOperation then inner.spelledOut else paren inner.spelledOut span
  | n => n

variable {e m n inner left right : Node} {use : OperatorUse} {span : Span} {text l r : String}

/-! ## Grouped texts -/

theorem render_paren (h : inner.render = .ok text) :
    (paren inner span).render = .ok s!"({text})" := by
  rw [render, h]
  rfl

/-- Grouped, an operation brings its own parentheses, and those around it are dropped. -/
theorem renderGrouped_paren (h : inner.renderGrouped = .ok text) (span : Span) :
    (paren inner span).renderGrouped =
      .ok (if inner.isOperation then text else s!"({text})") := by
  rw [renderGrouped, h]
  cases inner <;> rfl

/-- Grouped, an operation stands in parentheses. -/
theorem renderGrouped_binary (hleft : left.renderGrouped = .ok l)
    (hright : right.renderGrouped = .ok r) :
    (binary left (operator use) right span).renderGrouped = .ok s!"({l} {use.name} {r})" := by
  rw [renderGrouped, hleft, hright]
  rfl

/-- The text of a single operator and its operands in parentheses. -/
theorem render_single (hleft : left.render = .ok l) (hright : right.render = .ok r)
    (inside : Span) :
    (paren (sequence [left, operator use, right] inside) span).render =
      .ok s!"({l} {use.name} {r})" := by
  have htexts : renderAll [left, operator use, right] = .ok [l, use.name, r] := by
    rw [renderAll, renderAll, renderAll, renderAll, hleft, hright]
    rfl
  have hsequence : (sequence [left, operator use, right] inside).render =
      .ok (" ".intercalate [l, use.name, r]) := by
    rw [render, htexts]
    rfl
  rw [render_paren hsequence, String.intercalate_cons_cons, String.intercalate_cons_cons,
    String.intercalate_singleton]
  show Except.ok ("(" ++ (l ++ " " ++ (use.name ++ " " ++ r)) ++ ")") =
    Except.ok ("(" ++ l ++ " " ++ use.name ++ " " ++ r ++ ")")
  simp only [String.append_assoc]

/-- The grouped text is the text of the tree spelled out. -/
theorem GroupShaped.exists_renderGrouped (h : n.GroupShaped) :
    ∃ text, n.renderGrouped = .ok text ∧ n.spelledOut.render = .ok text := by
  induction h with
  | name => exact ⟨_, rfl, rfl⟩
  | integer => exact ⟨_, rfl, rfl⟩
  | @paren inner span _ ih =>
    obtain ⟨text, hgrouped, hspelled⟩ := ih
    refine ⟨_, renderGrouped_paren hgrouped span, ?_⟩
    rw [spelledOut]
    cases inner.isOperation with
    | true => exact hspelled
    | false => exact render_paren hspelled
  | binary _ _ _ ihl ihr =>
    obtain ⟨l, hgroupedl, hspelledl⟩ := ihl
    obtain ⟨r, hgroupedr, hspelledr⟩ := ihr
    exact ⟨_, renderGrouped_binary hgroupedl hgroupedr, render_single hspelledl hspelledr _⟩

/-! ## Explicit trees -/

/-- The trees in which every sequence is one operator between two operands, in parentheses of its
own. -/
inductive Explicit : Node → Prop
  | name {ident : String} {span : Span} : Explicit (.name ident span)
  | integer {text : String} {span : Span} : Explicit (.integer text span)
  | paren {inner : Node} {span : Span} (h : Explicit inner) : Explicit (.paren inner span)
  | single {left right : Node} {use : OperatorUse} {inside span : Span} (hleft : Explicit left)
      (hright : Explicit right) :
      Explicit (.paren (.sequence [left, .operator use, right] inside) span)

/-- Spelled out, a tree leaves no grouping open. -/
theorem GroupShaped.explicit (h : n.GroupShaped) : n.spelledOut.Explicit := by
  induction h with
  | name => exact .name
  | integer => exact .integer
  | @paren inner span _ ih =>
    rw [spelledOut]
    cases inner.isOperation with
    | true => exact ih
    | false => exact .paren ih
  | binary _ _ _ ihl ihr => exact .single ihl ihr

/-- A tree that leaves no grouping open is no bare sequence. -/
theorem Explicit.isSequence_eq (h : n.Explicit) : n.isSequence = false := by
  cases h <;> rfl

/-- Spelled out, only a name begins with a name. -/
theorem GroupShaped.eq_of_head?_lexemes {ident : String} (h : n.GroupShaped)
    (hhead : n.spelledOut.lexemes.head? = some (.name ident)) : ∃ span, n = .name ident span := by
  induction h with
  | @name other span =>
    cases hhead
    exact ⟨span, rfl⟩
  | integer => cases hhead
  | @paren inner span hinner ih =>
    rw [spelledOut] at hhead
    -- parentheses around an operation are not doubled, so the first lexeme is that of the inside
    cases hoperation : inner.isOperation with
    | true =>
      rw [hoperation] at hhead
      obtain ⟨span', rfl⟩ := ih hhead
      cases hoperation
    | false =>
      rw [hoperation] at hhead
      cases hhead
  | binary =>
    cases hhead

/-- Spelled out, a folded expression is a tree that a source text can spell. -/
theorem GroupShaped.flatShaped (h : n.GroupShaped) : n.spelledOut.FlatShaped := by
  induction h with
  | name h => exact .name h
  | integer h => exact .integer h
  | @paren inner span _ ih =>
    rw [spelledOut]
    cases inner.isOperation with
    | true => exact ih
    | false => exact .paren ih
  | @binary left right use span hleft huse hright ihl ihr =>
    rw [spelledOut]
    refine .paren (@FlatShaped.sequence left.spelledOut [(use, right.spelledOut)] span
      (List.cons_ne_nil _ _) ?_ ?_ ?_)
    · exact List.forall_mem_cons.mpr ⟨ihl, List.forall_mem_singleton.mpr ihr⟩
    · exact List.forall_mem_cons.mpr ⟨hleft.explicit.isSequence_eq,
        List.forall_mem_singleton.mpr hright.explicit.isSequence_eq⟩
    · exact List.forall_mem_singleton.mpr huse

/-- Only parentheses are like parentheses. -/
theorem of_alike_paren (h : n.alike (.paren inner span) = true) :
    ∃ inner' span', n = .paren inner' span' ∧ inner'.alike inner = true := by
  cases n with
  | paren inner' span' =>
    rw [alike] at h
    exact ⟨inner', span', rfl, h⟩
  | _ => simp [alike] at h

theorem of_alike_operator (h : n.alike (.operator use) = true) :
    ∃ use', n = .operator use' ∧ use'.name = use.name := by
  cases n with
  | operator use' =>
    rw [alike, beq_iff_eq] at h
    exact ⟨use', rfl, h⟩
  | _ => simp [alike] at h

/-- What is like a first node and others is a first node like it and others like them. -/
theorem of_alikeAll_cons {nodes others : List Node} (h : alikeAll nodes (e :: others) = true) :
    ∃ n rest, nodes = n :: rest ∧ n.alike e = true ∧ alikeAll rest others = true := by
  cases nodes with
  | nil => simp [alikeAll] at h
  | cons n rest =>
    rw [alikeAll, Bool.and_eq_true] at h
    exact ⟨n, rest, rfl, h.1, h.2⟩

theorem of_alikeAll_nil {nodes : List Node} (h : alikeAll nodes [] = true) : nodes = [] := by
  cases nodes with
  | nil => rfl
  | cons n rest => simp [alikeAll] at h

/-- Only a sequence of one operator is like such a sequence, and its parts are like the parts. -/
theorem of_alike_single (h : n.alike (.sequence [left, .operator use, right] span) = true) :
    ∃ left' use' right' span', n = .sequence [left', .operator use', right'] span' ∧
      left'.alike left = true ∧ use'.name = use.name ∧ right'.alike right = true := by
  cases n with
  | sequence elements span' =>
    rw [alike] at h
    obtain ⟨left', others, rfl, hleft, hothers⟩ := of_alikeAll_cons h
    obtain ⟨op, rest, rfl, hop, hrest⟩ := of_alikeAll_cons hothers
    obtain ⟨right', none, rfl, hright, hnone⟩ := of_alikeAll_cons hrest
    obtain ⟨use', rfl, huse⟩ := of_alike_operator hop
    cases of_alikeAll_nil hnone
    exact ⟨left', use', right', span', rfl, hleft, huse, hright⟩
  | _ => simp [alike] at h

/-- What is like an explicit tree is explicit, and has the same text. -/
theorem Explicit.of_alike (h : e.Explicit) (halike : n.alike e = true) :
    n.Explicit ∧ ∃ text, e.render = .ok text ∧ n.render = .ok text := by
  induction h generalizing n with
  | @name ident =>
    cases n with
    | name ident' =>
      rw [alike, beq_iff_eq] at halike
      exact ⟨.name, ident, rfl, congrArg Except.ok halike⟩
    | _ => simp [alike] at halike
  | @integer text =>
    cases n with
    | integer text' =>
      rw [alike, beq_iff_eq] at halike
      exact ⟨.integer, text, rfl, congrArg Except.ok halike⟩
    | _ => simp [alike] at halike
  | paren _ ih =>
    obtain ⟨inner', span', rfl, hinner⟩ := of_alike_paren halike
    obtain ⟨hexplicit, text, hrender, hrender'⟩ := ih hinner
    exact ⟨.paren hexplicit, _, render_paren hrender, render_paren hrender'⟩
  | @single left right use inside span _ _ ihl ihr =>
    obtain ⟨inner', span', rfl, hinner⟩ := of_alike_paren halike
    obtain ⟨left', use', right', inside', rfl, hleft, huse, hright⟩ := of_alike_single hinner
    obtain ⟨hexplicitl, l, hl, hl'⟩ := ihl hleft
    obtain ⟨hexplicitr, r, hr, hr'⟩ := ihr hright
    refine ⟨.single hexplicitl hexplicitr, _, render_single hl hr inside, ?_⟩
    rw [← huse]
    exact render_single hl' hr' inside'

end Node

namespace Registry

variable {r : Registry} {n : Node}

/-- An explicit tree folds to one whose grouped text is the text of the tree, and no two operators
are compared. -/
theorem exists_folds_of_explicit (r : Registry) (h : n.Explicit) :
    ∃ m es text, r.Folds n m es ∧ es.filter (·.isIncomparable) = [] ∧
      m.isClosed = true ∧ n.render = .ok text ∧ m.renderGrouped = .ok text := by
  induction h with
  | @name ident => exact ⟨_, [], ident, r.folds_leaf rfl rfl, rfl, rfl, rfl, rfl⟩
  | @integer text => exact ⟨_, [], text, r.folds_leaf rfl rfl, rfl, rfl, rfl, rfl⟩
  | @paren inner span _ ih =>
    obtain ⟨m, es, text, hfolds, hnone, hclosed, hrender, hgrouped⟩ := ih
    refine ⟨_, es, _, hfolds.paren span, hnone, rfl, Node.render_paren hrender, ?_⟩
    rw [Node.renderGrouped_paren hgrouped, Node.isOperation_of_isClosed hclosed]
    rfl
  | @single left right use inside span _ _ ihl ihr =>
    obtain ⟨l, es, ltext, hl, hnone, hclosed, hrender, hgrouped⟩ := ihl
    obtain ⟨m, es', rtext, hr, hnone', hclosed', hrender', hgrouped'⟩ := ihr
    -- both sides fold to nodes that are operands, so this operation is the whole grouping
    have hover : (Grouping.operation (.operand l) use (.operand m)).OverOperands := by
      intro n hn
      rcases List.mem_pair.mp hn with rfl | rfl
      · exact Node.isOperand_of_isClosed hclosed
      · exact Node.isOperand_of_isClosed hclosed'
    obtain ⟨more, hfold, herrors⟩ := folds_single hl hr hover inside
    refine ⟨_, more, _, hfold.paren span, ?_, rfl, Node.render_single hrender hrender' _, ?_⟩
    · rw [herrors, hnone, hnone']
      rfl
    · exact Node.renderGrouped_paren (Node.renderGrouped_binary hgrouped hgrouped') span

end Registry

/-! ## The folds of expressions -/

namespace Node

/-- A tree of this shape is an operand. -/
theorem FlatShaped.not_operator {n : Node} (h : n.FlatShaped) :
    n.isOperator = false ∧ n ≠ .bare := by
  cases h <;> exact ⟨rfl, nofun⟩

/-- A tree of this shape is well-formed. -/
theorem FlatShaped.wellFormed {e : Node} (h : e.FlatShaped) : e.WellFormed := by
  induction h with
  | name => exact wellFormed_name _
  | integer => exact wellFormed_integer _
  | paren _ ih => exact wellFormed_paren.mpr ih
  | @sequence first rest span hne hoperands hflat hoperators ih =>
    have hover : ∀ n ∈ first :: rest.map Prod.snd, n.isOperator = false ∧ n ≠ .bare :=
      fun n hn => (hoperands n hn).not_operator
    refine wellFormed_sequence.mpr ⟨⟨?_, fun hbare => ?_⟩, fun n hn => ?_⟩
    · rw [List.forall_mem_cons, List.forall_mem_map] at hover
      exact (sequenceFault_spell first rest).mpr ⟨hover.1.1, fun entry h => (hover.2 entry h).1⟩
    · -- a bare operand is neither an operand of this shape nor an operator
      rcases mem_cons_spell.mp hbare with hbare | ⟨entry, -, heq⟩
      · exact (hover _ hbare).2 rfl
      · cases heq
    · rcases mem_cons_spell.mp hn with hn | ⟨entry, -, rfl⟩
      · exact ih n hn
      · exact wellFormed_operator _

end Node

namespace Registry

variable {r : Registry} {e m : Node} {es : List PrecedenceError}

/-- What is read as an expression is a tree that a source text can spell. -/
theorem sourceTree_of_parseExpression {source : String} {file : Option String}
    (h : parseExpression source file = .ok e) : e.SourceTree := by
  unfold parseExpression at h
  split at h
  · cases h
  · next parsed hparsed =>
    split at h
    · next e' span hitems =>
      cases h
      obtain ⟨e', span', heq, he⟩ := sourceTree_of_parseSource hparsed (.statement e span)
        (by rw [SourceFile.statements, hitems]; exact List.mem_cons_self)
      cases heq
      exact he
    · cases h

/-- A well-formed sequence folds to a grouping of what its elements fold to. -/
theorem Folds.exists_grouping {nodes : List Node} {span : Span}
    (h : r.Folds (.sequence nodes span) m es) (hwell : (Node.sequence nodes span).WellFormed) :
    ∃ (t : Grouping Node OperatorUse) (es' : List PrecedenceError),
      r.FoldsAll nodes t.elements es' ∧ t.OverOperands ∧ t.node = m := by
  obtain ⟨⟨hseq, hbare⟩, hkids⟩ := Node.wellFormed_sequence.mp hwell
  obtain ⟨ms, es₁, es₂, hall, hbecomes, -⟩ := h.inv
  cases hbecomes with
  | other hnone => cases hnone
  | sequence hfold =>
    obtain ⟨t, rfl, hnode⟩ := (r.ends_foldSequence ms).of_yields hfold
    have hplaces := hall.canReplace hkids
    exact ⟨t, es₁, hall, Grouping.overOperands_of_elements
      (Node.sequenceFault_of_canReplace hplaces hseq)
      (Node.not_mem_bare_of_canReplace hplaces hbare), hnode⟩

/-- A flat sequence folds to a grouping of what its operands fold to, with the operators of the
sequence. -/
theorem Folds.exists_grouping_spell {first : Node} {rest : List (OperatorUse × Node)} {span : Span}
    (h : r.Folds (.sequence (first :: Node.spell rest) span) m es)
    (hshape : (Node.sequence (first :: Node.spell rest) span).FlatShaped)
    (hoperands : ∀ n ∈ first :: rest.map Prod.snd, n.FlatShaped) :
    ∃ t : Grouping Node OperatorUse, t.node = m ∧
      (∀ n ∈ t.operands, ∃ kid ∈ first :: rest.map Prod.snd, ∃ es, r.Folds kid n es) ∧
      ∀ use ∈ t.operators, ∃ entry ∈ rest, entry.1 = use := by
  obtain ⟨t, es', hall, hover, hnode⟩ := h.exists_grouping hshape.wellFormed
  have hkids := (Node.wellFormed_sequence.mp hshape.wellFormed).2
  refine ⟨t, hnode, fun n hn => ?_, fun use huse => ?_⟩
  · obtain ⟨kid, hkid, es, hfolds⟩ :=
      hall.exists_folds_of_mem_result (Grouping.mem_elements.mpr (.inl hn))
    rcases Node.mem_cons_spell.mp hkid with hkid | ⟨entry, -, rfl⟩
    · exact ⟨kid, hkid, es, hfolds⟩
    · obtain ⟨rfl, -⟩ := (r.folds_leaf rfl rfl).unique hfolds
      cases (hover _ hn).1
  · -- an operator folds to itself, so each one of `t` is one of the sequence
    have hmem := hall.operator_mem hkids (Grouping.mem_elements.mpr (.inr ⟨use, huse, rfl⟩))
    rcases Node.mem_cons_spell.mp hmem with hmem | ⟨entry, hentry, heq⟩
    · cases (hoperands _ hmem).not_operator.1
    · cases heq
      exact ⟨entry, hentry, rfl⟩

/-- A tree that a source text can spell folds to names, literals, operations and parentheses. -/
theorem Folds.groupShaped (h : r.Folds e m es) (hshape : e.FlatShaped) : m.GroupShaped := by
  induction hshape generalizing m es with
  | name hname =>
    obtain ⟨rfl, -⟩ := (r.folds_leaf rfl rfl).unique h
    exact .name hname
  | integer hinteger =>
    obtain ⟨rfl, -⟩ := (r.folds_leaf rfl rfl).unique h
    exact .integer hinteger
  | paren hinner ih =>
    obtain ⟨inside, es', hfolds, -⟩ := r.exists_folds hinner.wellFormed
    obtain ⟨rfl, -⟩ := (hfolds.paren _).unique h
    exact .paren (ih hfolds)
  | @sequence first rest span hne hoperands hflat hoperators ih =>
    have hshape : (Node.sequence (first :: Node.spell rest) span).FlatShaped :=
      .sequence hne hoperands hflat hoperators
    obtain ⟨t, rfl, hfolds, huses⟩ := h.exists_grouping_spell hshape hoperands
    refine Grouping.node_of_binary (fun hl huse hr => .binary hl huse hr) (fun n hn => ?_)
      fun use huse => ?_
    · -- the operands are the folded children, and the operators are those of the sequence
      obtain ⟨kid, hkid, es, hkidFolds⟩ := hfolds n hn
      exact ih kid hkid hkidFolds
    · obtain ⟨entry, hentry, rfl⟩ := huses use huse
      exact hoperators entry hentry

/-- Only a name folds to a name. -/
theorem Folds.eq_of_name {ident : String} {span : Span} (h : r.Folds e (.name ident span) es)
    (hshape : e.FlatShaped) : e = .name ident span := by
  cases hshape with
  | name =>
    obtain ⟨heq, -⟩ := (r.folds_leaf rfl rfl).unique h
    exact heq.symm
  | integer =>
    obtain ⟨heq, -⟩ := (r.folds_leaf rfl rfl).unique h
    cases heq
  | paren hinner =>
    obtain ⟨inside, es', hfolds, -⟩ := r.exists_folds hinner.wellFormed
    obtain ⟨heq, -⟩ := (hfolds.paren _).unique h
    cases heq
  | @sequence first rest span hne hoperands hflat hoperators =>
    have hshape : (Node.sequence (first :: Node.spell rest) span).FlatShaped :=
      .sequence hne hoperands hflat hoperators
    obtain ⟨t, es', hall, -, hnode⟩ := h.exists_grouping hshape.wellFormed
    cases t with
    | operation left op right => cases hnode
    | operand n =>
      -- a grouping of more than one element is an operation
      have hlength := hall.length_eq
      rw [Grouping.elements, List.length_singleton, List.length_cons, Node.length_spell] at hlength
      have hnil : rest.length = 0 := by omega
      exact absurd (List.length_eq_zero_iff.mp hnil) hne

/-- Spelled out, the fold of a statement's expression can be a statement's expression. -/
theorem Folds.sourceTree (h : r.Folds e m es) (he : e.SourceTree) : m.spelledOut.SourceTree := by
  have hgroup := h.groupShaped he.1
  refine ⟨hgroup.flatShaped, fun k hk heq => ?_⟩
  obtain ⟨span, rfl⟩ := hgroup.eq_of_head?_lexemes heq
  rw [h.eq_of_name he.1] at he
  exact he.2 k hk rfl

/-- **A grouped text says it all.** Fold an expression read from a source with any registry. The
grouped text of the result is read as an expression that folds, with any registry, to a result with
the same grouped text, and on the way no two operators are found to be incomparable. -/
theorem renderGrouped_readBack {source : String} {file : Option String} {e : Node}
    (hparse : parseExpression source file = .ok e) (r r' : Registry) (file' : Option String) :
    ∃ folded text again refolded, (r.foldTree e).collect = .ok folded ∧
      folded.value.node.renderGrouped = .ok text ∧
      parseExpression text file' = .ok again ∧
      (r'.foldTree again).collect = .ok refolded ∧
      (∀ err ∈ refolded.errors, err.isIncomparable = false) ∧
      refolded.value.node.renderGrouped = .ok text := by
  have he := sourceTree_of_parseExpression hparse
  obtain ⟨m, es, hfolds, -⟩ := r.exists_folds he.1.wellFormed
  have hgroup := hfolds.groupShaped he.1
  obtain ⟨text, hgrouped, hspelled⟩ := hgroup.exists_renderGrouped
  -- the text is read as a tree like the one spelled out, so that tree is explicit and has this text
  obtain ⟨_, again, hrender, hread, halike⟩ := exists_parseExpression (hfolds.sourceTree he) file'
  cases hspelled.symm.trans hrender
  obtain ⟨hexplicit, _, hrender, hagain⟩ := hgroup.explicit.of_alike halike
  cases hspelled.symm.trans hrender
  obtain ⟨m', es', _, hfolds', hnone, -, hrender', hgrouped'⟩ :=
    r'.exists_folds_of_explicit hexplicit
  cases hagain.symm.trans hrender'
  refine ⟨_, text, again, _, hfolds.yields_foldTree.collect, hgrouped, hread,
    hfolds'.yields_foldTree.collect, ?_, hgrouped'⟩
  simpa only [List.filter_eq_nil_iff, Bool.not_eq_true] using hnone

/-- The grouped text to which a source text folds, if it holds one expression. -/
def groupedText (r : Registry) (source : String) : Option String := do
  let e ← (parseExpression source none).toOption
  let folded ← (r.foldTree e).collect.toOption
  folded.value.node.renderGrouped.toOption

/-- With `unrelated` neither `~` can be compared with the operator in front of it, and the empty
registry declares no operator at all. Parentheses around an operation are not doubled, and others
stay. -/
theorem renderGrouped_readBack_parens :
    ∃ e folded again refolded,
      parseExpression "v + (w * x) ~ ((y)) ~ 1" none = .ok e ∧
      (unrelated.foldTree e).collect = .ok folded ∧
      folded.value.node.renderGrouped = .ok "(((v + (w * x)) ~ ((y))) ~ 1)" ∧
      parseExpression "(((v + (w * x)) ~ ((y))) ~ 1)" none = .ok again ∧
      (empty.foldTree again).collect = .ok refolded ∧
      (∀ err ∈ refolded.errors, err.isIncomparable = false) ∧
      refolded.value.node.renderGrouped = .ok "(((v + (w * x)) ~ ((y))) ~ 1)" := by
  have heval : unrelated.groupedText "v + (w * x) ~ ((y)) ~ 1" =
      some "(((v + (w * x)) ~ ((y))) ~ 1)" := by decide +kernel
  cases hparse : parseExpression "v + (w * x) ~ ((y)) ~ 1" none with
  | error => simp [groupedText, hparse, Except.toOption] at heval
  | ok e =>
    obtain ⟨folded, text, again, refolded, hfold, hgrouped, hagain⟩ :=
      renderGrouped_readBack hparse unrelated empty none
    have htext : text = "(((v + (w * x)) ~ ((y))) ~ 1)" := by
      simpa [groupedText, hparse, hfold, hgrouped, Except.toOption] using heval
    rw [htext] at hgrouped hagain
    exact ⟨e, folded, again, refolded, rfl, hfold, hgrouped, hagain⟩

end Registry

end OperatorFold
