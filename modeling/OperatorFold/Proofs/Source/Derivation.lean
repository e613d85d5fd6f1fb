import OperatorFold.Proofs.Source.Expressions
import OperatorFold.Proofs.Tree.Within

/-! # Items and the tokens that they come from

What is read of a text takes up its tokens one behind the other. `DerivesItem` says of an item from
which tokens it comes, and of an expression `Derives` says it down to its names, literals and
operators. Braces, parentheses and keywords, of which the tree keeps nothing, are among the tokens,
so the span of a declaration or of parentheses is told by the first token and the last.

The reader keeps all its tokens accounted for: those of the complete items and those of the item at
hand (`Progress.DerivedFrom`). Every token keeps it so (`Progress.DerivedFrom.step`), and so the
items of a text come from all of its tokens (`row_tokens`).
-/

namespace OperatorFold.Source

/-! ## Rows -/

section Row

variable {α : Type} {R : α → List Token → Prop} {x : α} {xs : List α} {ts us : List Token}

/-- The entries of a list take up some tokens, one behind the other. -/
def Row (R : α → List Token → Prop) (xs : List α) (ts : List Token) : Prop :=
  ∃ parts : List (α × List Token),
    parts.map Prod.fst = xs ∧ parts.flatMap Prod.snd = ts ∧ ∀ part ∈ parts, R part.1 part.2

theorem Row.nil : Row R [] [] := ⟨[], rfl, rfl, List.forall_mem_nil _⟩

/-- One more entry at the end of a row takes the tokens behind those of the row. -/
theorem Row.snoc (h : Row R xs ts) (hx : R x us) : Row R (xs ++ [x]) (ts ++ us) := by
  obtain ⟨parts, rfl, rfl, hparts⟩ := h
  refine ⟨parts ++ [(x, us)], by simp, by simp, ?_⟩
  rw [List.forall_mem_append]
  exact ⟨hparts, List.forall_mem_singleton.mpr hx⟩

/-- Every entry of a row has its tokens somewhere among all. -/
theorem Row.exists_of_mem (h : Row R xs ts) (hx : x ∈ xs) :
    ∃ before own after, ts = before ++ (own ++ after) ∧ R x own := by
  obtain ⟨parts, rfl, rfl, hparts⟩ := h
  obtain ⟨part, hpart, rfl⟩ := List.mem_map.mp hx
  obtain ⟨front, back, rfl⟩ := List.append_of_mem hpart
  exact ⟨front.flatMap Prod.snd, part.2, back.flatMap Prod.snd, by simp, hparts part hpart⟩

end Row

/-! ## Derivations -/

/-- A node comes from some tokens. -/
inductive Derives (file : Option String) : Node → List Token → Prop
  | name {t : Token} (ht : t.terminal = .name) : Derives file (.name t.text (t.span file)) [t]
  | integer {t : Token} (ht : t.terminal = .integer) :
      Derives file (.integer t.text (t.span file)) [t]
  | operator {t : Token} (ht : t.terminal = .operator) :
      Derives file (.operator ⟨t.text, t.span file⟩) [t]
  | paren {inner : Node} {ts : List Token} {opening closing : Token}
      (hopening : opening.lexeme = .mark .openParen) (hclosing : closing.lexeme = .mark .closeParen)
      (h : Derives file inner ts) :
      Derives file (.paren inner (spanBetween file opening.start closing.stop))
        (opening :: (ts ++ [closing]))
  | sequence {parts : List (Node × List Token)} {first last : Node}
      (hfirst : first ∈ (parts.map Prod.fst).head?) (hlast : last ∈ (parts.map Prod.fst).getLast?)
      (h : ∀ part ∈ parts, Derives file part.1 part.2) :
      Derives file
        (.sequence (parts.map Prod.fst) (.cover file (spanOf first) (spanOf last)))
        (parts.flatMap Prod.snd)

/-- A group as far as it has been read comes from some tokens: its keyword and others, with the
names of its relations among them. -/
structure GroupDraft.DerivedFrom (file : Option String) (draft : GroupDraft) (ts : List Token) :
    Prop where
  keyword : ∃ first ∈ ts.head?, first.lexeme = .keyword .precedenceGroup ∧
    draft.start = first.start
  relations : ∀ r ∈ draft.relations, ∃ t ∈ ts, r.target = t.text ∧ r.span = t.span file

/-- An item comes from some tokens. -/
inductive DerivesItem (file : Option String) : Item Node → List Token → Prop
  | statement {e : Node} {ts : List Token} (h : Derives file e ts) :
      DerivesItem file (.node (statementNode file e)) ts
  | operator {f : Fixity} {fixity keyword op : Token}
      (hfixity : fixity.lexeme = .keyword (.fixity f)) :
      DerivesItem file (operatorItem file f fixity.start op.stop op.text none) [fixity, keyword, op]
  | operatorGroup {f : Fixity} {fixity keyword op colon group : Token}
      (hfixity : fixity.lexeme = .keyword (.fixity f)) :
      DerivesItem file (operatorItem file f fixity.start group.stop op.text (some group.text))
        [fixity, keyword, op, colon, group]
  | group {draft : GroupDraft} {ts : List Token} {closing : Token}
      (hclosing : closing.lexeme = .mark .closeBrace) (h : draft.DerivedFrom file ts) :
      DerivesItem file (draft.item file closing.stop) (ts ++ [closing])

/-! ## The invariant -/

/-- The chains that are interrupted come from some tokens, the parentheses among them. -/
inductive Encloses (file : Option String) : List Frame → List Token → Prop
  | nil : Encloses file [] []
  | cons {f : Frame} {frames : List Frame} {ts us : List Token} {opening : Token}
      (h : Encloses file frames ts) (hbefore : Row (Derives file) f.before.reverse us)
      (hopening : opening.lexeme = .mark .openParen) (hstart : f.opening = opening.start) :
      Encloses file (f :: frames) (ts ++ us ++ [opening])

/-- What has been read of the item at hand comes from some tokens. -/
inductive State.DerivedFrom (file : Option String) : State → List Token → Prop
  | ready : DerivedFrom file .ready []
  | operatorDeclared {f : Fixity} {fixity keyword op : Token}
      (hfixity : fixity.lexeme = .keyword (.fixity f)) :
      DerivedFrom file (.operatorDeclared f fixity.start op.text op.stop) [fixity, keyword, op]
  | operand {frames : List Frame} {elements : List Node} {ts us : List Token}
      (hframes : Encloses file frames ts) (helements : Row (Derives file) elements.reverse us) :
      DerivedFrom file (.operand frames elements) (ts ++ us)
  | chain {frames : List Frame} {elements : List Node} {ts us : List Token}
      (hframes : Encloses file frames ts) (hne : elements ≠ [])
      (helements : Row (Derives file) elements.reverse us) :
      DerivedFrom file (.chain frames elements) (ts ++ us)
  | fixity {f : Fixity} {fixity : Token} (hfixity : fixity.lexeme = .keyword (.fixity f)) :
      DerivedFrom file (.fixity f fixity.start) [fixity]
  | operatorName {f : Fixity} {fixity keyword : Token}
      (hfixity : fixity.lexeme = .keyword (.fixity f)) :
      DerivedFrom file (.operatorName f fixity.start) [fixity, keyword]
  | operatorGroup {f : Fixity} {fixity keyword op colon : Token}
      (hfixity : fixity.lexeme = .keyword (.fixity f)) :
      DerivedFrom file (.operatorGroup f fixity.start op.text) [fixity, keyword, op, colon]
  | groupName {t : Token} (ht : t.lexeme = .keyword .precedenceGroup) :
      DerivedFrom file (.groupName t.start) [t]
  | groupOpen {t name : Token} (ht : t.lexeme = .keyword .precedenceGroup) :
      DerivedFrom file (.groupOpen t.start name.text) [t, name]
  | groupBody {draft : GroupDraft} {ts : List Token} (h : draft.DerivedFrom file ts) :
      DerivedFrom file (.groupBody draft) ts
  | attributeColon {draft : GroupDraft} {ts : List Token} (h : draft.DerivedFrom file ts)
      (attr : GroupAttribute) : DerivedFrom file (.attributeColon draft attr) ts
  | associativity {draft : GroupDraft} {ts : List Token} (h : draft.DerivedFrom file ts) :
      DerivedFrom file (.associativity draft) ts
  | assignment {draft : GroupDraft} {ts : List Token} (h : draft.DerivedFrom file ts) :
      DerivedFrom file (.assignment draft) ts
  | relationTarget {draft : GroupDraft} {ts : List Token} (h : draft.DerivedFrom file ts)
      (kind : RelationKind) : DerivedFrom file (.relationTarget draft kind) ts
  | relationEnd {draft : GroupDraft} {ts : List Token} (h : draft.DerivedFrom file ts)
      (kind : RelationKind) : DerivedFrom file (.relationEnd draft kind) ts

/-- Everything that has been read comes from some tokens: first the complete items, and then what
there is of the item at hand. -/
def Progress.DerivedFrom (file : Option String) (p : Progress) (ts : List Token) : Prop :=
  ∃ before own, ts = before ++ own ∧ Row (DerivesItem file) p.items.reverse before ∧
    p.state.DerivedFrom file own

/-! ## One token -/

variable {file : Option String} {a : Accepted} {l : Lexeme} {t : Token} {ts us : List Token}
  {draft : GroupDraft} {elements : List Node} {frames : List Frame} {items : List (Item Node)}
  {state : State} {p q : Progress}

/-- A mark with a place is spelled as such. -/
theorem Accepted.Takes.eq_mark {m : Mark} (h : a.Takes t.lexeme) (ht : t.terminal = .mark m) :
    t.lexeme = .mark m := by
  obtain ⟨terminal, text, start, stop⟩ := t
  cases ht
  exact congrArg (Lexeme.mk _) h.2

/-- A keyword with a place is spelled as such. -/
theorem Accepted.Takes.eq_keyword {k : Keyword} (h : a.Takes t.lexeme)
    (ht : t.terminal = .keyword k) : t.lexeme = .keyword k := by
  obtain ⟨terminal, text, start, stop⟩ := t
  cases ht
  exact congrArg (Lexeme.mk _) h.2

/-- A chain comes from the tokens of its elements. -/
theorem derives_chainNode (hne : elements ≠ []) (h : Row (Derives file) elements.reverse ts) :
    Derives file (chainNode file elements) ts := by
  obtain ⟨parts, hparts, rfl, hderives⟩ := h
  -- one element stands for itself, and several are a sequence from the first to the last
  match elements with
  | [] => exact absurd rfl hne
  | [e] =>
    obtain ⟨part, rfl, rfl⟩ := List.map_eq_singleton_iff.mp hparts
    rw [List.flatMap_singleton]
    exact hderives part (List.mem_singleton_self _)
  | e :: d :: rest =>
    obtain ⟨first, hfirst⟩ : ∃ first, (e :: d :: rest).getLast? = some first :=
      ⟨_, List.getLast?_eq_some_getLast hne⟩
    have hchain : chainNode file (e :: d :: rest) =
        .sequence (parts.map Prod.fst) (.cover file (spanOf first) (spanOf e)) := by
      rw [hparts, chainNode, hfirst]
      · rfl
      · rintro _ ⟨⟩
    rw [hchain]
    refine .sequence ?_ ?_ hderives
    · rw [hparts, List.head?_reverse]
      exact hfirst
    · rw [hparts, List.getLast?_reverse]
      rfl

/-- More tokens change nothing in what a draft has been derived from. -/
theorem GroupDraft.DerivedFrom.snoc (h : draft.DerivedFrom file ts) (t : Token) :
    draft.DerivedFrom file (ts ++ [t]) where
  keyword := by
    obtain ⟨first, hfirst, hkeyword⟩ := h.keyword
    refine ⟨first, ?_, hkeyword⟩
    rw [List.head?_append, hfirst]
    rfl
  relations r hr := by
    obtain ⟨u, hu, hspan⟩ := h.relations r hr
    exact ⟨u, List.mem_append_left _ hu, hspan⟩

/-- A relation comes from the token of its name. -/
theorem GroupDraft.DerivedFrom.relate (h : draft.DerivedFrom file ts) (kind : RelationKind)
    (t : Token) : (draft.relate file kind t).DerivedFrom file (ts ++ [t]) where
  keyword := (h.snoc t).keyword
  relations := by
    rw [GroupDraft.relate, List.forall_mem_cons]
    exact ⟨⟨t, List.mem_append_right _ (List.mem_singleton_self t), rfl, rfl⟩,
      (h.snoc t).relations⟩

/-- Behind what has been read of an expression, a token begins an operand. -/
theorem State.DerivedFrom.of_beginOperand (hframes : Encloses file frames ts)
    (helements : Row (Derives file) elements.reverse us) (htakes : a.Takes t.lexeme)
    (h : beginOperand file frames elements t = some state) :
    state.DerivedFrom file (ts ++ us ++ [t]) := by
  -- a token that is an operand by itself extends the chain of its own level
  have hoperand {n : Node} (hn : Derives file n [t]) :
      (State.chain frames (n :: elements)).DerivedFrom file (ts ++ us ++ [t]) := by
    rw [List.append_assoc]
    refine .chain hframes (List.cons_ne_nil _ _) ?_
    rw [List.reverse_cons]
    exact helements.snoc hn
  unfold beginOperand at h
  split at h
  · next ht =>
    cases h
    exact hoperand (.name ht)
  · next ht =>
    cases h
    exact hoperand (.integer ht)
  · next ht =>
    cases h
    rw [← List.append_nil (ts ++ us ++ _)]
    exact .operand (.cons hframes helements (htakes.eq_mark ht) rfl) .nil
  · cases h

/-- A token that begins an item is the first one of what comes of it. -/
theorem State.DerivedFrom.of_beginItem (htakes : a.Takes t.lexeme)
    (h : beginItem file t = some state) : state.DerivedFrom file [t] := by
  unfold beginItem at h
  split at h
  · next ht =>
    cases h
    exact .groupName (htakes.eq_keyword ht)
  · next ht =>
    cases h
    exact .fixity (htakes.eq_keyword ht)
  · have hempty : Row (Derives file) ([] : List Node).reverse [] := .nil
    exact of_beginOperand .nil hempty htakes h

/-- A complete item comes from the tokens of the item at hand. -/
theorem Progress.DerivedFrom.close (h : p.DerivedFrom file ts)
    (hclose : p.close file = some items) :
    Row (DerivesItem file) items.reverse ts := by
  obtain ⟨before, own, rfl, hbefore, hstate⟩ := h
  -- a text may end between two items, behind an operator without a group, or behind an operand
  rcases close_eq_some hclose with ⟨hready, rfl⟩ | ⟨f, start, name, stop, hdeclared, rfl⟩ |
    ⟨elements, hchain, rfl⟩
  · rw [hready] at hstate
    cases hstate
    rw [List.append_nil]
    exact hbefore
  · rw [hdeclared] at hstate
    cases hstate with
    | operatorDeclared hfixity =>
      rw [List.reverse_cons]
      exact hbefore.snoc (.operator hfixity)
  · rw [hchain] at hstate
    cases hstate with
    | chain hframes hne helements =>
      cases hframes
      rw [List.reverse_cons]
      exact hbefore.snoc (.statement (derives_chainNode hne helements))

/-- To start an item is to close the last one and to begin the next with one more token. -/
theorem Progress.DerivedFrom.startItem (h : p.DerivedFrom file ts) (htakes : a.Takes t.lexeme)
    (hstart : p.startItem file t = some q) : q.DerivedFrom file (ts ++ [t]) := by
  obtain ⟨before, state, hclose, hbegin, rfl⟩ := of_startItem hstart
  exact ⟨ts, [t], rfl, h.close hclose, .of_beginItem htakes hbegin⟩

/-- In the body of a group, a token begins an attribute or closes the group. -/
theorem Progress.DerivedFrom.of_bodyStep {before : List Token}
    (hitems : Row (DerivesItem file) items.reverse before) (h : draft.DerivedFrom file ts)
    (htakes : a.Takes t.lexeme) (hstep : bodyStep file items draft t = some q) :
    q.DerivedFrom file (before ++ ts ++ [t]) := by
  unfold bodyStep at hstep
  split at hstep
  · cases hstep
    exact ⟨before, _, List.append_assoc .., hitems, .attributeColon (h.snoc t) _⟩
  · next ht =>
    cases hstep
    refine ⟨before ++ ts ++ [t], [], (List.append_nil _).symm, ?_, .ready⟩
    rw [List.reverse_cons, List.append_assoc]
    exact hitems.snoc (.group (htakes.eq_mark ht) h)
  · cases hstep

/-- An attribute that begins takes nothing from the draft yet. -/
theorem State.DerivedFrom.of_beginAttribute (h : draft.DerivedFrom file ts)
    (attr : GroupAttribute) :
    (beginAttribute draft attr).DerivedFrom file ts := by
  cases attr with
  | associativity => exact .associativity h
  | assignment => exact .assignment h
  | relation kind => exact .relationTarget h kind

/-- A token with a place comes to those from which everything comes that has been read. -/
theorem Progress.DerivedFrom.step (h : p.DerivedFrom file ts)
    (htakes : p.state.accepted.Takes t.lexeme) (hstep : p.step file t = some q) :
    q.DerivedFrom file (ts ++ [t]) := by
  have hstart (hstart : p.startItem file t = some q) : q.DerivedFrom file (ts ++ [t]) :=
    h.startItem htakes hstart
  obtain ⟨items, state⟩ := p
  obtain ⟨before, own, rfl, hitems, hstate⟩ := h
  -- where no item is completed, the token comes to those of the item at hand
  have hown {state' : State} (hstate' : state'.DerivedFrom file (own ++ [t])) :
      (⟨items, state'⟩ : Progress).DerivedFrom file (before ++ own ++ [t]) :=
    ⟨before, own ++ [t], List.append_assoc .., hitems, hstate'⟩
  cases hstate <;> simp only [Progress.step] at hstep
  case ready => exact hstart hstep
  case operatorDeclared hfixity =>
    split at hstep
    · cases hstep
      exact hown (.operatorGroup hfixity)
    · exact hstart hstep
  case operand hframes helements =>
    obtain ⟨state', hbegin, rfl⟩ := Option.map_eq_some_iff.mp hstep
    exact hown (.of_beginOperand hframes helements htakes hbegin)
  case chain hframes hne helements =>
    split at hstep
    · next ht =>
      cases hstep
      refine hown ?_
      rw [List.append_assoc]
      refine .operand hframes ?_
      rw [List.reverse_cons]
      exact helements.snoc (.operator ht)
    · next ht =>
      -- the parenthesis and the chain in it make an operand of the chain around it
      cases hstep
      cases hframes with
      | @cons f frames ts us opening houter hbefore hopening hopened =>
        have hparen := Derives.paren hopening (htakes.eq_mark ht)
          (derives_chainNode hne helements)
        refine hown ?_
        rw [List.append_assoc, List.append_assoc, List.append_assoc, hopened]
        refine .chain houter (List.cons_ne_nil _ _) ?_
        rw [List.reverse_cons]
        exact hbefore.snoc hparen
    · exact hstart hstep
  case fixity hfixity =>
    split at hstep <;> cases hstep
    exact hown (.operatorName hfixity)
  case operatorName hfixity =>
    split at hstep <;> cases hstep
    exact hown (.operatorDeclared hfixity)
  case operatorGroup hfixity =>
    split at hstep <;> cases hstep
    refine ⟨_, [], (List.append_nil _).symm, ?_, .ready⟩
    rw [List.reverse_cons, List.append_assoc]
    exact hitems.snoc (.operatorGroup hfixity)
  case groupName ht =>
    split at hstep <;> cases hstep
    exact hown (.groupOpen ht)
  case groupOpen ht =>
    split at hstep <;> cases hstep
    exact hown (.groupBody ⟨⟨_, rfl, ht, rfl⟩, List.forall_mem_nil _⟩)
  case groupBody h => exact .of_bodyStep hitems h htakes hstep
  case attributeColon attr h =>
    split at hstep <;> cases hstep
    exact hown (.of_beginAttribute (h.snoc t) attr)
  case associativity h =>
    split at hstep <;> cases hstep
    exact hown (.groupBody ⟨(h.snoc t).keyword, (h.snoc t).relations⟩)
  case assignment h =>
    split at hstep <;> cases hstep
    exact hown (.groupBody ⟨(h.snoc t).keyword, (h.snoc t).relations⟩)
  case relationTarget kind h =>
    split at hstep <;> cases hstep
    exact hown (.relationEnd (h.relate kind t) kind)
  case relationEnd kind h =>
    split at hstep
    · cases hstep
      exact hown (.relationTarget (h.snoc t) kind)
    · exact .of_bodyStep hitems h htakes hstep

/-! ## Whole texts -/

/-- A run over tokens keeps to what all of the tokens derive. -/
theorem Reads.derivedFrom (h : Reads file p us q) (hp : p.DerivedFrom file ts) :
    q.DerivedFrom file (ts ++ us) := by
  induction h generalizing ts with
  | nil =>
    rw [List.append_nil]
    exact hp
  | cons htakes hstep _ ih =>
    rw [List.append_cons]
    exact ih (hp.step htakes hstep)

/-- The items of a text come from its tokens, one behind the other. -/
theorem row_tokens {s : String} {source : SourceFile} (h : parseSource s file = .ok source) :
    Row (DerivesItem file) source.items (tokens s file) := by
  obtain ⟨-, q, before, hreads, hclose, hitems⟩ := reads_tokens h
  have hstart : Progress.DerivedFrom file {} [] := ⟨[], [], rfl, .nil, .ready⟩
  rw [hitems]
  exact (hreads.derivedFrom hstart).close hclose

/-! ## Parts of a node -/

/-- The tokens of a child stand together among those of the node. -/
theorem Derives.exists_of_child {n kid : Node} (h : Derives file n ts) (hkid : kid ∈ n.children) :
    ∃ before own after, ts = before ++ (own ++ after) ∧ Derives file kid own := by
  cases h with
  | name | integer | operator => cases hkid
  | @paren inner ts opening closing _ _ h =>
    cases List.mem_singleton.mp hkid
    exact ⟨[opening], ts, [closing], rfl, h⟩
  | @sequence parts _ _ _ _ h =>
    have hrow : Row (Derives file) (parts.map Prod.fst) (parts.flatMap Prod.snd) :=
      ⟨parts, rfl, rfl, h⟩
    exact hrow.exists_of_mem hkid

/-- What stands in a node comes from some of its tokens in a row. -/
theorem Derives.exists_of_within {m n : Node} (h : Derives file n ts) (hm : m.Within n) :
    ∃ before own after, ts = before ++ (own ++ after) ∧ Derives file m own := by
  induction hm generalizing ts with
  | refl => exact ⟨[], ts, [], by simp, h⟩
  | tail _ hkid ih =>
    obtain ⟨before, own, after, rfl, hown⟩ := h.exists_of_child hkid
    obtain ⟨before', own', after', rfl, hown'⟩ := ih hown
    exact ⟨before ++ before', own', after' ++ after, by simp, hown'⟩

end OperatorFold.Source
