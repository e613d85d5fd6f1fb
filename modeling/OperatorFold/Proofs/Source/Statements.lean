import OperatorFold.Proofs.Source.Items

/-! # Statements of a source text

Whatever text is read, its statements hold trees that a source text can spell
(`sourceTree_of_parseSource`). That follows from an invariant of the reader's stack of chains
(`State.WellShaped`) that every token keeps: a chain alternates operands and operators, and the
first operand of a statement is no word with which another item begins.

The text of a tree that a statement can hold is read as a tree like it (`exists_parseExpression`).
So the texts of all statements of a file, one behind the other, make a file with the same
statements.
-/

namespace OperatorFold.Source

variable {file : Option String} {n : Node} {elements : List Node} {frames : List Frame}

/-! ## Chains -/

/-- An operand of a chain: a flat tree that is no sequence itself. -/
def IsOperand (n : Node) : Prop := n.FlatShaped ∧ n.isSequence = false

/-- The elements of a chain that ends with an operand, last first. -/
inductive PastOperand : List Node → Prop
  | first {n : Node} (hn : IsOperand n) : PastOperand [n]
  | more {n : Node} {use : OperatorUse} {elements : List Node} (hn : IsOperand n)
      (huse : isOperatorName use.name = true) (h : PastOperand elements) :
      PastOperand (n :: .operator use :: elements)

/-- The elements of a chain that an operand goes on with, last first. -/
inductive BeforeOperand : List Node → Prop
  | start : BeforeOperand []
  | operator {use : OperatorUse} {elements : List Node} (huse : isOperatorName use.name = true)
      (h : PastOperand elements) : BeforeOperand (.operator use :: elements)

/-- An operand takes the place that is free for one. -/
theorem BeforeOperand.cons (h : BeforeOperand elements) (hn : IsOperand n) :
    PastOperand (n :: elements) := by
  cases h with
  | start => exact .first hn
  | operator huse h => exact .more hn huse h

/-- What has been read up to an operand is a first operand and operators with one operand each. -/
theorem PastOperand.exists_spell (h : PastOperand elements) :
    ∃ first rest, elements.reverse = first :: Node.spell rest ∧
      (∀ n ∈ first :: rest.map Prod.snd, IsOperand n) ∧
      ∀ entry ∈ rest, isOperatorName entry.1.name = true := by
  induction h with
  | @first n hn => exact ⟨n, [], rfl, List.forall_mem_singleton.mpr hn, List.forall_mem_nil _⟩
  | @more n use elements hn huse _ ih =>
    obtain ⟨first, rest, hrest, hoperands, hoperators⟩ := ih
    refine ⟨first, rest ++ [(use, n)], ?_, ?_, ?_⟩
    · rw [List.reverse_cons, List.reverse_cons, hrest, Node.spell_append, List.append_assoc]
      rfl
    · rw [List.map_append, ← List.cons_append, List.forall_mem_append]
      exact ⟨hoperands, List.forall_mem_singleton.mpr hn⟩
    · rw [List.forall_mem_append]
      exact ⟨hoperators, List.forall_mem_singleton.mpr huse⟩

/-- A chain that ends with an operand makes a flat tree, and this begins as its first operand
does. -/
theorem PastOperand.flatShaped (h : PastOperand elements) (file : Option String) :
    (chainNode file elements).FlatShaped ∧
      ∃ first ∈ elements.getLast?,
        (chainNode file elements).lexemes.head? = first.lexemes.head? := by
  cases h with
  | @first n hn => exact ⟨hn.1, n, rfl, rfl⟩
  | @more n use elements hn huse h =>
    -- an operator stands in the chain, so it is a sequence
    obtain ⟨first, rest, hrest, hoperands, hoperators⟩ := (PastOperand.more hn huse h).exists_spell
    have hlength : (n :: .operator use :: elements).length ≠ 1 := by simp
    obtain ⟨span, hnode⟩ := chainNode_eq_sequence file hlength
    rw [hrest] at hnode
    have hne : rest ≠ [] := by
      rintro rfl
      have hlengths := congrArg List.length hrest
      simp [Node.spell] at hlengths
    rw [hnode]
    refine ⟨.sequence hne (fun n hn => (hoperands n hn).1) (fun n hn => (hoperands n hn).2)
      hoperators, first, ?_, ?_⟩
    · rw [← List.head?_reverse, hrest]
      rfl
    · have hfirst := (hoperands first List.mem_cons_self).1.lexemes_ne_nil
      rw [Node.lexemes, Node.lexemesAll, List.head?_append_of_ne_nil _ hfirst]

/-- No statement and no other item begins with the first element, if there is one. -/
def BeginsStatement (elements : List Node) : Prop :=
  ∀ first ∈ elements.getLast?, ∀ k ∈ Keyword.itemStarts,
    first.lexemes.head? ≠ some (.name k.text)

/-- What has been read up to an operand is a tree that a source text can spell, if it can begin a
statement. -/
theorem PastOperand.sourceTree (h : PastOperand elements) (hbegins : BeginsStatement elements)
    (file : Option String) : (chainNode file elements).SourceTree := by
  obtain ⟨hshape, first, hfirst, hhead⟩ := h.flatShaped file
  refine ⟨hshape, fun k hk => ?_⟩
  rw [hhead]
  exact hbegins first hfirst k hk

/-! ## The invariant -/

/-- The elements of the chain outside all parentheses. -/
def outermost : List Frame → List Node → List Node
  | [], elements => elements
  | f :: frames, _ => outermost frames f.before

/-- Every chain that is being read is alternating, and the outermost one may be a statement. Outside
all parentheses an operand is only awaited behind an operator. -/
def State.WellShaped : State → Prop
  | .operand frames elements =>
    BeforeOperand elements ∧ (∀ f ∈ frames, BeforeOperand f.before) ∧
      BeginsStatement (outermost frames elements) ∧ (frames = [] → elements ≠ [])
  | .chain frames elements =>
    PastOperand elements ∧ (∀ f ∈ frames, BeforeOperand f.before) ∧
      BeginsStatement (outermost frames elements)
  | _ => True

/-- If an item is a node, it is a statement with a tree that a source text can spell. -/
def HoldsStatement (i : Item Node) : Prop :=
  ∀ n ∈ i.node?, ∃ e span, n = .statement e span ∧ e.SourceTree

/-- All that has been read is well shaped. -/
def Progress.WellShaped (p : Progress) : Prop :=
  p.state.WellShaped ∧ ∀ i ∈ p.items, HoldsStatement i

/-- A declaration is no statement, so nothing is asked of it. -/
theorem holdsStatement_declaration (d : Declaration) : HoldsStatement (.declaration d) := nofun

/-- An operand may come to the outermost chain, if this is not empty or the operand does not begin
like another item. -/
theorem beginsStatement_cons (hbegins : BeginsStatement (outermost frames elements))
    (hn : frames = [] → elements = [] → ∀ k ∈ Keyword.itemStarts,
      n.lexemes.head? ≠ some (.name k.text)) :
    BeginsStatement (outermost frames (n :: elements)) := by
  cases frames with
  | cons f frames => exact hbegins
  | nil =>
    cases elements with
    | nil =>
      intro first hfirst
      cases hfirst
      exact hn rfl rfl
    | cons last elements => exact hbegins

variable {a : Accepted} {t : Token} {state : State} {p q : Progress} {ts : List Token}
  {before : List (Item Node)}

/-- Where an operand is due, a token begins one and leaves a well-shaped state. -/
theorem beginOperand_wellShaped (hbefore : BeforeOperand elements)
    (hframes : ∀ f ∈ frames, BeforeOperand f.before)
    (hbegins : BeginsStatement (outermost frames elements)) (htakes : a.Takes t.lexeme)
    (hfree : frames = [] → elements = [] → a.keywords = Keyword.itemStarts)
    (h : beginOperand file frames elements t = some state) : state.WellShaped := by
  obtain ⟨terminal, text, start, stop⟩ := t
  cases terminal with
  | name =>
    cases h
    refine ⟨hbefore.cons ⟨.name htakes.2.1, rfl⟩, hframes, beginsStatement_cons hbegins ?_⟩
    -- only the first name of a statement is kept from spelling the start of an item
    intro hnil hnil' k hk heq
    cases heq
    exact htakes.2.2 k (hfree hnil hnil' ▸ hk) rfl
  | integer =>
    cases h
    refine ⟨hbefore.cons ⟨.integer htakes.2, rfl⟩, hframes, beginsStatement_cons hbegins ?_⟩
    intro _ _ k _ heq
    cases heq
  | mark m =>
    cases m with
    | openParen =>
      cases h
      exact ⟨.start, List.forall_mem_cons.mpr ⟨hbefore, hframes⟩, hbegins, nofun⟩
    | _ => cases h
  | _ => cases h

/-- A token that begins an item leaves a well-shaped state. -/
theorem beginItem_wellShaped (htakes : a.Takes t.lexeme)
    (hkeywords : a.keywords = Keyword.itemStarts) (h : beginItem file t = some state) :
    state.WellShaped := by
  unfold beginItem at h
  split at h
  · cases h
    trivial
  · cases h
    trivial
  · exact beginOperand_wellShaped .start (List.forall_mem_nil _) nofun htakes
      (fun _ _ => hkeywords) h

/-- What a well-shaped state has read can be closed to items that hold trees of source texts. -/
theorem close_wellShaped (h : p.WellShaped) (hclose : p.close file = some before) :
    ∀ i ∈ before, HoldsStatement i := by
  obtain ⟨hstate, hitems⟩ := h
  rcases close_eq_some hclose with ⟨-, rfl⟩ | ⟨f, start, name, stop, -, rfl⟩ |
    ⟨elements, hchain, rfl⟩
  · exact hitems
  · exact List.forall_mem_cons.mpr ⟨holdsStatement_declaration _, hitems⟩
  · rw [hchain] at hstate
    obtain ⟨helements, -, hbegins⟩ := hstate
    refine List.forall_mem_cons.mpr ⟨fun n hn => ?_, hitems⟩
    cases hn
    exact ⟨_, _, rfl, helements.sourceTree hbegins file⟩

/-- To start an item keeps all that is read well-shaped. -/
theorem startItem_wellShaped (h : p.WellShaped) (htakes : a.Takes t.lexeme)
    (hkeywords : a.keywords = Keyword.itemStarts) (hstart : p.startItem file t = some q) :
    q.WellShaped := by
  obtain ⟨before, state, hclose, hbegin, rfl⟩ := of_startItem hstart
  exact ⟨beginItem_wellShaped htakes hkeywords hbegin, close_wellShaped h hclose⟩

/-- In the body of a group, a token leaves a well-shaped state. -/
theorem bodyStep_wellShaped {items : List (Item Node)} {draft : GroupDraft}
    (hitems : ∀ i ∈ items, HoldsStatement i) (h : bodyStep file items draft t = some q) :
    q.WellShaped := by
  unfold bodyStep at h
  split at h <;> cases h
  · exact ⟨trivial, hitems⟩
  · exact ⟨trivial, List.forall_mem_cons.mpr ⟨holdsStatement_declaration _, hitems⟩⟩

/-- A token with a place keeps everything well shaped. -/
theorem step_wellShaped (h : p.WellShaped) (htakes : p.state.accepted.Takes t.lexeme)
    (hstep : p.step file t = some q) : q.WellShaped := by
  obtain ⟨items, state⟩ := p
  obtain ⟨hstate, hitems⟩ := id h
  obtain ⟨terminal, text, start, stop⟩ := t
  cases state with
  | ready => exact startItem_wellShaped h htakes rfl hstep
  | operatorDeclared =>
    simp only [Progress.step] at hstep
    split at hstep
    · cases hstep
      exact ⟨trivial, hitems⟩
    · exact startItem_wellShaped h htakes rfl hstep
  | operand frames elements =>
    obtain ⟨hbefore, hframes, hbegins, hne⟩ := hstate
    obtain ⟨state, hbegin, rfl⟩ := Option.map_eq_some_iff.mp hstep
    refine ⟨beginOperand_wellShaped hbefore hframes hbegins htakes ?_ hbegin, hitems⟩
    exact fun hnil hnil' => absurd hnil' (hne hnil)
  | chain frames elements =>
    obtain ⟨helements, hframes, hbegins⟩ := hstate
    simp only [Progress.step] at hstep
    split at hstep
    · cases hstep
      have hne : elements ≠ [] := by rintro rfl; cases helements
      exact ⟨⟨.operator htakes.2 helements, hframes,
        beginsStatement_cons hbegins fun _ hnil => absurd hnil hne,
        fun _ => List.cons_ne_nil _ _⟩, hitems⟩
    · next f frames =>
      -- the closed chain is an operand of the one that it interrupted
      cases hstep
      rw [List.forall_mem_cons] at hframes
      have hoperand :
          IsOperand (.paren (chainNode file elements) (spanBetween file f.opening stop)) :=
        ⟨.paren (helements.flatShaped file).1, rfl⟩
      refine ⟨⟨hframes.1.cons hoperand, hframes.2, beginsStatement_cons hbegins ?_⟩, hitems⟩
      intro _ _ k _ heq
      cases heq
    · exact startItem_wellShaped h htakes rfl hstep
  | groupBody draft => exact bodyStep_wellShaped hitems hstep
  | relationEnd draft kind =>
    simp only [Progress.step] at hstep
    split at hstep
    · cases hstep
      exact ⟨trivial, hitems⟩
    · exact bodyStep_wellShaped hitems hstep
  | operatorGroup f start name =>
    simp only [Progress.step] at hstep
    split at hstep <;> cases hstep
    exact ⟨trivial, List.forall_mem_cons.mpr ⟨holdsStatement_declaration _, hitems⟩⟩
  | attributeColon draft attr =>
    simp only [Progress.step] at hstep
    split at hstep <;> cases hstep
    cases attr <;> exact ⟨trivial, hitems⟩
  | _ =>
    simp only [Progress.step] at hstep
    split at hstep <;> cases hstep
    exact ⟨trivial, hitems⟩

/-- A run over tokens keeps all that is read well-shaped. -/
theorem Reads.wellShaped (h : Reads file p ts q) (hp : p.WellShaped) : q.WellShaped := by
  induction h with
  | nil => exact hp
  | cons htakes hstep _ ih => exact ih (step_wellShaped hp htakes hstep)

/-- The statements of a source text hold trees that a source text can spell. -/
theorem sourceTree_of_parseSource {s : String} {source : SourceFile}
    (h : parseSource s file = .ok source) :
    ∀ n ∈ source.statements, ∃ e span, n = .statement e span ∧ e.SourceTree := by
  obtain ⟨-, q, before, hreads, hclose, hitems⟩ := reads_tokens h
  have hstart : Progress.WellShaped {} := ⟨trivial, List.forall_mem_nil _⟩
  have hbefore := close_wellShaped (hreads.wellShaped hstart) hclose
  intro n hn
  obtain ⟨i, hi, hnode⟩ := List.mem_filterMap.mp hn
  rw [hitems] at hi
  exact hbefore i (List.mem_reverse.mp hi) n hnode

/-! ## Reading back -/

section ReadBack

variable {e : Node} {span span' : Span} {statements : List Node} {i j : Item Node}
  {items others : List (Item Node)}

/-- Only a statement of a like expression is like a statement. -/
theorem of_alike_statement (h : n.alike (.statement e span) = true) :
    ∃ e' span', n = .statement e' span' ∧ e'.alike e = true := by
  cases n with
  | statement e' span' =>
    rw [Node.alike] at h
    exact ⟨e', span', rfl, h⟩
  | _ => simp [Node.alike] at h

theorem of_alikeItem_node (h : Node.alikeItem i (.node n) = true) :
    ∃ n', i = .node n' ∧ n'.alike n = true := by
  cases i with
  | declaration d => simp [Node.alikeItem] at h
  | node n' =>
    rw [Node.alikeItem] at h
    exact ⟨n', rfl, h⟩

/-- What is like a first item and others is a first item like it and others like them. -/
theorem of_alikeItems_cons (h : Node.alikeItems items (i :: others) = true) :
    ∃ j rest, items = j :: rest ∧ Node.alikeItem j i = true ∧
      Node.alikeItems rest others = true := by
  cases items with
  | nil => simp [Node.alikeItems] at h
  | cons j rest =>
    rw [Node.alikeItems, Bool.and_eq_true] at h
    exact ⟨j, rest, rfl, h.1, h.2⟩

theorem of_alikeItems_nil (h : Node.alikeItems items [] = true) : items = [] := by
  cases items with
  | nil => rfl
  | cons j rest => simp [Node.alikeItems] at h

/-- The words of expressions are their texts. -/
theorem allWords_expressions (trees : List Node) :
    WrittenItem.allWords (trees.map .expression) = Node.renderAll trees := by
  induction trees with
  | nil => rfl
  | cons e trees ih =>
    rw [List.map_cons, WrittenItem.allWords, WrittenItem.words, Node.renderAll, ih]
    cases e.render with
    | error => rfl
    | ok text => cases Node.renderAll trees <;> rfl

/-- The statement of a tree, wherever it stands. -/
def anyStatement (e : Node) : Item Node := .node (.statement e .unknown)

/-- Trees that statements can hold have texts, and these, spaced, are read as statements of trees
like them. -/
theorem parseSource_of_trees {trees : List Node} (h : ∀ e ∈ trees, e.SourceTree)
    (file : Option String) :
    ∃ texts, Node.renderAll trees = .ok texts ∧
      ∀ text : String, Spaced texts text.toList →
        ∃ source, parseSource text file = .ok source ∧
          Node.alikeItems source.items (trees.map anyStatement) = true := by
  have hwritten : ∀ i ∈ trees.map WrittenItem.expression, i.WellSpelled :=
    List.forall_mem_map.mpr h
  obtain ⟨texts, htexts, hspells⟩ := WrittenItem.exists_allWords hwritten
  refine ⟨texts, (allWords_expressions trees).symm.trans htexts, fun text hspaced => ?_⟩
  obtain ⟨source, hparse, -, halike⟩ := exists_parseSource hwritten hspells hspaced file
  rw [List.map_map] at halike
  exact ⟨source, hparse, halike⟩

/-- The text of a tree that a statement can hold is read as a tree like it. -/
theorem exists_parseExpression (h : e.SourceTree) (file : Option String) :
    ∃ text e', e.render = .ok text ∧ parseExpression text file = .ok e' ∧ e'.alike e = true := by
  obtain ⟨texts, htexts, hread⟩ := parseSource_of_trees (List.forall_mem_singleton.mpr h) file
  obtain ⟨text, _, hrender, hnil, rfl⟩ := Node.renderAll_cons_eq_ok.mp htexts
  cases hnil
  have hspaced : Spaced [text] text.toList := by
    rw [← List.append_nil text.toList]
    exact .cons (List.forall_mem_nil _) nofun (.nil (List.forall_mem_nil _))
  obtain ⟨⟨items, file⟩, hparse, halike⟩ := hread text hspaced
  obtain ⟨j, rest, rfl, hj, hrest⟩ := of_alikeItems_cons halike
  cases of_alikeItems_nil hrest
  obtain ⟨n, rfl, hn⟩ := of_alikeItem_node hj
  obtain ⟨e', span', rfl, he⟩ := of_alike_statement hn
  exact ⟨text, e', hrender, by rw [parseExpression, hparse], he⟩

/-- Statements have the texts of their trees, and what is like statements of these is like them. -/
theorem exists_trees (h : ∀ n ∈ statements, ∃ e span, n = .statement e span ∧ e.SourceTree) :
    ∃ trees : List Node, (∀ e ∈ trees, e.SourceTree) ∧
      Node.renderAll statements = Node.renderAll trees ∧
      ∀ items, Node.alikeItems items (trees.map anyStatement) = true →
        Node.alikeItems items (statements.map .node) = true := by
  induction statements with
  | nil => exact ⟨[], List.forall_mem_nil _, rfl, fun _ halike => halike⟩
  | cons n statements ih =>
    rw [List.forall_mem_cons] at h
    obtain ⟨⟨e, span, rfl, he⟩, hmore⟩ := h
    obtain ⟨trees, htrees, htexts, halikes⟩ := ih hmore
    refine ⟨e :: trees, List.forall_mem_cons.mpr ⟨he, htrees⟩, ?_, fun items halike => ?_⟩
    · rw [Node.renderAll, Node.renderAll, Node.render, htexts]
    · -- what is like a statement is a statement of a tree like its own
      obtain ⟨j, rest, rfl, hj, hrest⟩ := of_alikeItems_cons halike
      obtain ⟨n', rfl, hn⟩ := of_alikeItem_node hj
      obtain ⟨e', span', rfl, halike'⟩ := of_alike_statement hn
      rw [List.map_cons, Node.alikeItems, Node.alikeItem, Node.alike, halike',
        halikes rest hrest]
      rfl

/-- **Expressions and their texts agree.** A tree that a source text can spell, and that does not
begin like another item, has a text that is read as a tree like it. In turn all statements of a text
hold such trees. So their texts, line by line, are read as statements like them, and as nothing
else. -/
theorem render_readBack :
    (∀ (e : Node) (file : Option String), e.SourceTree →
      ∃ text e', e.render = .ok text ∧ parseExpression text file = .ok e' ∧
        e'.alike e = true) ∧
    ∀ (s : String) (file file' : Option String) (source : SourceFile),
      parseSource s file = .ok source →
        (∀ n ∈ source.statements, ∃ e span, n = .statement e span ∧ e.SourceTree) ∧
        ∃ texts again, Node.renderAll source.statements = .ok texts ∧
          parseSource ("\n".intercalate texts) file' = .ok again ∧
          Node.alikeItems again.items (source.statements.map .node) = true := by
  refine ⟨fun e file h => exists_parseExpression h file, fun s file file' source h => ?_⟩
  have hstatements := sourceTree_of_parseSource h
  obtain ⟨trees, htrees, htexts, halikes⟩ := exists_trees hstatements
  obtain ⟨texts, hrender, hread⟩ := parseSource_of_trees htrees file'
  have hspaced : Spaced texts ("\n".intercalate texts).toList :=
    spaced_intercalate (by decide) (by decide) texts
  obtain ⟨again, hparse, halike⟩ := hread _ hspaced
  exact ⟨hstatements, texts, again, htexts.trans hrender, hparse, halikes _ halike⟩

/-- A keyword in parentheses is a name, and a statement ends where the next one begins. -/
theorem render_readBack_keyword :
    (∃ text e', (Node.paren (.name "infix" .unknown) .unknown).render = .ok text ∧
      parseExpression text none = .ok e' ∧
      e'.alike (.paren (.name "infix" .unknown) .unknown) = true) ∧
    ∃ source, parseSource "(infix) a" none = .ok source ∧
      (∀ n ∈ source.statements, ∃ e span, n = .statement e span ∧ e.SourceTree) ∧
      ∃ texts again, Node.renderAll source.statements = .ok texts ∧
        parseSource ("\n".intercalate texts) none = .ok again ∧
        Node.alikeItems again.items (source.statements.map .node) = true := by
  have hkeyword : (Node.paren (.name "infix" .unknown) .unknown).SourceTree :=
    ⟨.paren (.name (by decide)), by decide⟩
  have hname : (Node.name "a" .unknown).SourceTree := ⟨.name (by decide), by decide⟩
  refine ⟨render_readBack.1 _ none hkeyword, ?_⟩
  obtain ⟨texts, htexts, hread⟩ := parseSource_of_trees
    (List.forall_mem_cons.mpr ⟨hkeyword, List.forall_mem_singleton.mpr hname⟩) none
  cases htexts
  have hspaced : Spaced ["(infix)", "a"] (" ".intercalate ["(infix)", "a"]).toList :=
    spaced_intercalate (by decide) (by decide) _
  obtain ⟨source, hparse, -⟩ := hread "(infix) a" hspaced
  exact ⟨source, hparse, render_readBack.2 "(infix) a" none none source hparse⟩

end ReadBack

end OperatorFold.Source
