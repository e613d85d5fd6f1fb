import OperatorFold.Fold.Expected
import OperatorFold.Proofs.Source.Grouped
import OperatorFold.Proofs.Tree.Alike

/-! # Trees spelled by parentheses

A grouped text spells the tree that it was made of: read again, with its parentheses taken for what
they group (`Node.explicitGroups`), it is that tree. This holds of every tree of names, literals,
operations and parentheses in which no parentheses stand around an operation (`Node.Spellable`);
those that do are dropped from the text, so they cannot come back.

The fold of a chain is such a tree, and so a text can be compared with its own fold, spelled out.
-/

namespace OperatorFold

open Source

namespace Node

/-! ## Spellable trees -/

/-- The trees that parentheses can spell: those to which expressions of a source fold, without
parentheses around an operation. -/
inductive Spellable : Node → Prop
  | name {ident : String} {span : Span} (h : isName ident = true) : Spellable (.name ident span)
  | integer {text : String} {span : Span} (h : isInteger text = true) :
      Spellable (.integer text span)
  | paren {inner : Node} {span : Span} (hinner : inner.isOperation = false)
      (h : Spellable inner) : Spellable (.paren inner span)
  | binary {left right : Node} {use : OperatorUse} {span : Span} (hleft : Spellable left)
      (huse : isOperatorName use.name = true) (hright : Spellable right) :
      Spellable (.binary left (.operator use) right span)

/-- A tree is nothing but a name with which another item begins. -/
def IsItemStart (n : Node) : Prop := ∃ k ∈ Keyword.itemStarts, ∃ span, n = .name k.text span

/-- No parentheses in a tree stand around a chain. -/
def NoChainInParens (n : Node) : Prop :=
  ∀ inner span, (paren inner span).Within n → inner.isSequence = false

variable {e inner left right t : Node} {use : OperatorUse} {span inside : Span}

/-- A tree that parentheses can spell has a grouped text. -/
theorem Spellable.groupShaped (h : t.Spellable) : t.GroupShaped := by
  induction h with
  | name h => exact .name h
  | integer h => exact .integer h
  | paren _ _ ih => exact .paren ih
  | binary _ huse _ ihl ihr => exact .binary ihl huse ihr

/-- Spelled out, a tree that does not stand for another item can be a statement's expression. -/
theorem GroupShaped.sourceTree (h : t.GroupShaped) (hfree : ¬t.IsItemStart) :
    t.spelledOut.SourceTree := by
  refine ⟨h.flatShaped, fun k hk heq => hfree ?_⟩
  obtain ⟨span, hname⟩ := h.eq_of_head?_lexemes heq
  exact ⟨k, hk, span, hname⟩

/-- No parentheses stand around a chain if none do at the root and none do below it. -/
theorem noChainInParens_iff :
    t.NoChainInParens ↔ (∀ inner span, t = paren inner span → inner.isSequence = false) ∧
      ∀ kid ∈ t.children, kid.NoChainInParens := by
  constructor
  · intro h
    refine ⟨?_, fun kid hkid inner span hwithin => h inner span (hwithin.of_child hkid)⟩
    rintro inner span rfl
    exact h inner span (within_self _)
  · rintro ⟨hroot, hkids⟩ inner span hwithin
    rcases within_iff.mp hwithin with heq | ⟨kid, hwithin, hkid⟩
    · exact hroot inner span heq
    · exact hkids kid hkid inner span hwithin

@[simp] theorem noChainInParens_name (ident : String) : (name ident span).NoChainInParens :=
  noChainInParens_iff.mpr ⟨nofun, nofun⟩

@[simp] theorem noChainInParens_operator (use : OperatorUse) : (operator use).NoChainInParens :=
  noChainInParens_iff.mpr ⟨nofun, nofun⟩

/-- Parentheses hold no chain if no sequence stands directly in them and none in parentheses further
in. -/
@[simp] theorem noChainInParens_paren :
    (paren inner span).NoChainInParens ↔ inner.isSequence = false ∧ inner.NoChainInParens := by
  simp [noChainInParens_iff (t := paren inner span), children]

/-- A sequence has no chain in parentheses if none of its elements has one. -/
@[simp] theorem noChainInParens_sequence {elements : List Node} :
    (sequence elements span).NoChainInParens ↔ ∀ e ∈ elements, e.NoChainInParens := by
  simp [noChainInParens_iff (t := sequence elements span), children]

/-- A tree like one without chains in parentheses has none either. -/
theorem NoChainInParens.of_alike (h : t.NoChainInParens) (halike : e.alike t = true) :
    e.NoChainInParens := by
  intro inner span hwithin
  obtain ⟨part, hpart, hlike⟩ := hwithin.exists_alike halike
  obtain ⟨inner', span', rfl, hinner⟩ := of_alike_paren (alike_symm hlike)
  exact (alikeAll_children hinner).1.symm.trans (h inner' span' hpart)

/-! ## Reading the groups -/

/-- Parentheses around a single operation are read as the operation. -/
theorem explicitGroups_single {l r : Substitute} (hleft : left.explicitGroups = .ok l)
    (hright : right.explicitGroups = .ok r) :
    (paren (sequence [left, operator use, right] inside) span).explicitGroups =
      .ok ⟨binary l.node (operator use) r.node .unknown, false⟩ := by
  rw [explicitGroups, hleft, hright]
  rfl

/-- In any other node only the children are read. -/
theorem explicitGroups_eq (h : ∀ left use right inside span,
    e ≠ paren (sequence [left, operator use, right] inside) span) :
    e.explicitGroups = (do let kids ← e.children.mapM explicitGroups; e.replaceChildren kids) := by
  have hkids : (e.children.attach.map Subtype.val).mapM explicitGroups =
      e.children.attach.mapM fun kid => explicitGroups kid.1 := List.mapM_map
  rw [List.attach_map_subtype_val] at hkids
  rw [explicitGroups, hkids]
  exact h

/-- Other parentheses stay around what is read inside. -/
theorem explicitGroups_paren {s : Substitute} (hseq : inner.isSequence = false)
    (h : inner.explicitGroups = .ok s) :
    (paren inner span).explicitGroups =
      .ok (if s.kept then ⟨paren inner span, true⟩ else ⟨paren s.node span, false⟩) := by
  have hsingle : ∀ left use right inside span', paren inner span ≠
      paren (sequence [left, operator use, right] inside) span' := by
    rintro _ _ _ _ _ heq
    cases heq
    cases hseq
  have hkids : (paren inner span).children.mapM explicitGroups = .ok [s] := by
    rw [children, List.mapM_cons, h]
    rfl
  rw [explicitGroups_eq hsingle, hkids]
  have hne : (paren inner span).children ≠ [] := List.cons_ne_nil _ _
  show (paren inner span).replaceChildren [s] = _
  rw [replaceChildren_eq hne rfl, List.all_cons, List.all_nil, Bool.and_true]
  cases s.kept <;> rfl

theorem explicitGroups_name {ident : String} :
    (name ident span).explicitGroups = .ok ⟨name ident span, true⟩ := by
  rw [explicitGroups_eq fun _ _ _ _ _ heq => by cases heq]
  rfl

theorem explicitGroups_integer {text : String} :
    (integer text span).explicitGroups = .ok ⟨integer text span, true⟩ := by
  rw [explicitGroups_eq fun _ _ _ _ _ heq => by cases heq]
  rfl

/-- What is like a spellable tree spelled out is read as a tree like it. -/
theorem Spellable.exists_explicitGroups (h : t.Spellable) (halike : e.alike t.spelledOut = true) :
    ∃ s, e.explicitGroups = .ok s ∧ s.node.alike t = true ∧ (s.kept = true → s.node = e) := by
  induction h generalizing e with
  | name =>
    cases e with
    | name => exact ⟨_, explicitGroups_name, halike, fun _ => rfl⟩
    | _ => simp [spelledOut, alike] at halike
  | integer =>
    cases e with
    | integer => exact ⟨_, explicitGroups_integer, halike, fun _ => rfl⟩
    | _ => simp [spelledOut, alike] at halike
  | @paren inner span hinner h ih =>
    rw [spelledOut, hinner] at halike
    obtain ⟨inner', span', rfl, hinside⟩ := of_alike_paren halike
    obtain ⟨s, hs, hlike, hkept⟩ := ih hinside
    -- the inside is spelled with its own parentheses, so these ones group nothing
    have hseq : inner'.isSequence = false :=
      (alikeAll_children hinside).1.trans h.groupShaped.explicit.isSequence_eq
    refine ⟨_, explicitGroups_paren hseq hs, ?_⟩
    cases hk : s.kept with
    | true =>
      rw [hkept hk] at hlike
      exact ⟨by rw [if_pos rfl, alike]; exact hlike, fun _ => rfl⟩
    | false =>
      rw [if_neg Bool.false_ne_true, alike]
      exact ⟨hlike, fun h => absurd h Bool.false_ne_true⟩
  | binary _ _ _ ihl ihr =>
    rw [spelledOut] at halike
    obtain ⟨inner', span', rfl, hinner⟩ := of_alike_paren halike
    obtain ⟨left', use', right', inside', rfl, hleft, huse, hright⟩ := of_alike_single hinner
    obtain ⟨l, hl, hlike, -⟩ := ihl hleft
    obtain ⟨r, hr, hlike', -⟩ := ihr hright
    refine ⟨_, explicitGroups_single hl hr, ?_, fun h => absurd h Bool.false_ne_true⟩
    rw [alike, alike, hlike, hlike', huse, beq_self_eq_true]
    rfl

end Node

/-! ## Spelled trees -/

open Node

variable {t : Node}

/-- The grouped text of a spellable tree spells it, if the text can stand for a statement. -/
theorem Node.Spellable.exists_spelledTree (h : t.Spellable) (hsource : t.spelledOut.SourceTree) :
    ∃ text spelled, t.renderGrouped = .ok text ∧ spelledTree text = .ok spelled ∧
      spelled.alike t = true := by
  obtain ⟨text, hgrouped, hspelled⟩ := h.groupShaped.exists_renderGrouped
  obtain ⟨_, e, hrender, hread, halike⟩ := exists_parseExpression hsource none
  cases hspelled.symm.trans hrender
  obtain ⟨s, hs, hlike, -⟩ := h.exists_explicitGroups halike
  refine ⟨text, s.node, hgrouped, ?_, hlike⟩
  simp only [spelledTree, hread, hs, Except.mapError, bind, pure, Except.bind, Except.pure]

/-! ## The folds of chains -/

namespace Registry

variable {r : Registry} {e m : Node} {es : List PrecedenceError}

/-- Only a sequence folds to an operation. -/
theorem Folds.isOperation_eq (h : r.Folds e m es) (hshape : e.FlatShaped)
    (hseq : e.isSequence = false) : m.isOperation = false := by
  cases hshape with
  | name | integer =>
    obtain ⟨rfl, -⟩ := (r.folds_leaf rfl rfl).unique h
    rfl
  | paren hinner =>
    obtain ⟨inside, es', hfolds, -⟩ := r.exists_folds hinner.wellFormed
    obtain ⟨rfl, -⟩ := (hfolds.paren _).unique h
    rfl
  | sequence => cases hseq

/-- Where no parentheses stand around a chain, the fold is a tree that parentheses can spell. -/
theorem Folds.spellable (h : r.Folds e m es) (hshape : e.FlatShaped)
    (hchains : e.NoChainInParens) : m.Spellable := by
  induction hshape generalizing m es with
  | name hname =>
    obtain ⟨rfl, -⟩ := (r.folds_leaf rfl rfl).unique h
    exact .name hname
  | integer hinteger =>
    obtain ⟨rfl, -⟩ := (r.folds_leaf rfl rfl).unique h
    exact .integer hinteger
  | paren hinner ih =>
    obtain ⟨inside, es', hfolds, -⟩ := r.exists_folds hinner.wellFormed
    obtain ⟨rfl, -⟩ := (hfolds.paren _).unique h
    obtain ⟨hseq, hinside⟩ := noChainInParens_paren.mp hchains
    exact .paren (hfolds.isOperation_eq hinner hseq) (ih hfolds hinside)
  | @sequence first rest span hne hoperands hflat hoperators ih =>
    have hshape : (Node.sequence (first :: Node.spell rest) span).FlatShaped :=
      .sequence hne hoperands hflat hoperators
    obtain ⟨t, rfl, hfolds, huses⟩ := h.exists_grouping_spell hshape hoperands
    refine Grouping.node_of_binary (fun hl huse hr => .binary hl huse hr) (fun n hn => ?_)
      fun use huse => ?_
    · obtain ⟨kid, hkid, es, hkidFolds⟩ := hfolds n hn
      exact ih kid hkid hkidFolds
        (noChainInParens_sequence.mp hchains kid (mem_cons_spell.mpr (.inl hkid)))
    · obtain ⟨entry, hentry, rfl⟩ := huses use huse
      exact hoperators entry hentry

/-- A text folds as a second one spells it, if the tree spelled is like the fold. -/
theorem foldsAs_of_alike {source text : String} {spelled : Node}
    (hparse : parseExpression source none = .ok e) (h : r.Folds e m [])
    (hspelled : spelledTree text = .ok spelled) (halike : spelled.alike m = true) :
    r.foldsAs source text = .ok true := by
  have hfold : r.foldText source = .ok m := by
    rw [foldText, hparse]
    show (do let folded ← (r.foldTree e).failFast.mapError TextError.halted; pure folded.node) = _
    rw [h.yields_foldTree.failFast]
    rfl
  -- nothing of the folded tree is left to fold, nor of a tree that is like it
  have hnone := h.normal
  have hnone' := (Node.containsSequence_of_alike halike).trans hnone
  rw [foldsAs, hfold, hspelled]
  show (if m.containsSequence then .ok false
    else .ok (!spelled.containsSequence && m.alike spelled) : Except TextError Bool) = _
  rw [hnone, hnone', Node.alike_symm halike]
  rfl

/-- **Explicit parentheses spell the tree.** A tree that parentheses can spell, unless it is a name
with which another item begins, has a grouped text, and what this spells is a tree like it. So two
such trees with one grouped text are alike. An expression without chains in parentheses folds, with
any registry, to a tree with a grouped text, and if nothing is reported, it folds as this text
spells it. -/
theorem renderGrouped_spells :
    (∀ t : Node, t.Spellable → ¬t.IsItemStart → ∃ text spelled, t.renderGrouped = .ok text ∧
      spelledTree text = .ok spelled ∧ spelled.alike t = true) ∧
    (∀ (t t' : Node) (text : String), t.Spellable → ¬t.IsItemStart → t'.Spellable →
      ¬t'.IsItemStart → t.renderGrouped = .ok text → t'.renderGrouped = .ok text →
        t.alike t' = true) ∧
    ∀ (r : Registry) (source : String) (e : Node), parseExpression source none = .ok e →
      e.NoChainInParens → ∃ folded text, (r.foldTree e).collect = .ok folded ∧
        folded.value.node.renderGrouped = .ok text ∧
        (folded.errors = [] → r.foldsAs source text = .ok true) := by
  refine ⟨fun t h hfree => ?_, fun t t' text h hfree h' hfree' htext htext' => ?_,
    fun r source e hparse hchains => ?_⟩
  · exact h.exists_spelledTree (h.groupShaped.sourceTree hfree)
  · obtain ⟨_, spelled, hgrouped, hspelled, hlike⟩ :=
      h.exists_spelledTree (h.groupShaped.sourceTree hfree)
    obtain ⟨_, spelled', hgrouped', hspelled', hlike'⟩ :=
      h'.exists_spelledTree (h'.groupShaped.sourceTree hfree')
    -- one text is read as one tree, which is like both
    cases htext.symm.trans hgrouped
    cases htext'.symm.trans hgrouped'
    cases hspelled.symm.trans hspelled'
    exact Node.alike_trans (Node.alike_symm hlike) hlike'
  · have he := sourceTree_of_parseExpression hparse
    obtain ⟨m, es, hfolds, -⟩ := r.exists_folds he.1.wellFormed
    obtain ⟨text, spelled, hgrouped, hspelled, hlike⟩ :=
      (hfolds.spellable he.1 hchains).exists_spelledTree (hfolds.sourceTree he)
    refine ⟨_, text, hfolds.yields_foldTree.collect, hgrouped, ?_⟩
    rintro rfl
    exact foldsAs_of_alike hparse hfolds hspelled hlike

/-- The tree of `((infix) / (v - 0x1F))`, all of it at one place. -/
def keywordQuotient (span : Span) : Node :=
  .binary (.paren (.name "infix" span) span) (.operator ⟨"/", span⟩)
    (.binary (.name "v" span) (.operator ⟨"-", span⟩) (.integer "0x1F" span) span) span

/-- The tree of `v + w * ((x))`. -/
def enclosedOperand : Node :=
  .sequence [.name "v" .unknown, .operator ⟨"+", .unknown⟩, .name "w" .unknown,
    .operator ⟨"*", .unknown⟩, .paren (.paren (.name "x" .unknown) .unknown) .unknown] .unknown

/-- Parentheses around a name stay where they are, those around an operation become one, and where
a tree stands does not matter. -/
theorem renderGrouped_spells_mixed :
    (∃ text spelled, (keywordQuotient .unknown).renderGrouped = .ok text ∧
      spelledTree text = .ok spelled ∧ spelled.alike (keywordQuotient .unknown) = true) ∧
    (keywordQuotient .unknown).alike (keywordQuotient { line := some 7 }) = true ∧
    unrelated.foldsAs "v + w * ((x))" "(v + (w * ((x))))" = .ok true := by
  have hspellable (span : Span) : (keywordQuotient span).Spellable :=
    .binary (.paren rfl (.name (by decide))) (show isOperatorName "/" = true by decide)
      (.binary (.name (by decide)) (show isOperatorName "-" = true by decide)
        (.integer (by decide)))
  have hfree (span : Span) : ¬(keywordQuotient span).IsItemStart := by
    rintro ⟨k, -, span', heq⟩
    cases heq
  obtain ⟨text, hgrouped⟩ : ∃ text, (keywordQuotient .unknown).renderGrouped = .ok text := ⟨_, rfl⟩
  refine ⟨renderGrouped_spells.1 _ (hspellable _) (hfree _),
    renderGrouped_spells.2.1 _ _ text (hspellable _) (hfree _) (hspellable _) (hfree _) hgrouped
      hgrouped, ?_⟩
  have heval : ((parseExpression "v + w * ((x))" none).toOption.map fun e =>
      e.alike enclosedOperand && (unrelated.foldTree e).errors.isEmpty) = some true := by
    decide +kernel
  have htext : unrelated.groupedText "v + w * ((x))" = some "(v + (w * ((x))))" := by
    decide +kernel
  cases hparse : parseExpression "v + w * ((x))" none with
  | error => simp [hparse, Except.toOption] at heval
  | ok e =>
    simp only [hparse, Except.toOption, Option.map_some, Option.some.injEq, Bool.and_eq_true,
      List.isEmpty_iff] at heval
    have hchains : enclosedOperand.NoChainInParens := by
      simp [enclosedOperand, isSequence]
    obtain ⟨folded, text, hrun, hgrouped, hfolds⟩ :=
      renderGrouped_spells.2.2 unrelated _ e hparse (hchains.of_alike heval.1)
    have heq : text = "(v + (w * ((x))))" := by
      simpa [groupedText, hparse, hrun, hgrouped, Except.toOption] using htext
    rw [← heq]
    exact hfolds ((Reporting.errors_of_collect hrun).symm.trans heval.2)

end Registry

end OperatorFold
