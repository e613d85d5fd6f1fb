import OperatorFold.Proofs.Source.Expressions

/-! # Items in source form

A source text is written item by item: groups with their attributes, operators, and expressions
(`WrittenItem`). The words of an item are its tokens, except that an expression is one word, its own
text. A text that has the words of some items in a row with blanks between them (`Spaced`) is read,
and it is read as these items (`exists_parseSource`), whatever items stand next to each other.

Items have no separators, so each has to be read behind any other one. That is why an item is always
read from a progress that some complete item has led to (`leadsTo_item`).
-/

namespace OperatorFold.Source

/-! ## Written items -/

/-- An attribute of a group as it is written. A relation has one name or more. -/
inductive WrittenAttribute where
  | associativity (a : Associativity)
  | assignment (b : Bool)
  | relation (kind : RelationKind) (first : String) (more : List String)

namespace WrittenAttribute

/-- The tokens of an attribute. -/
def lexemes : WrittenAttribute → List Lexeme
  | associativity a =>
    [.keyword (.groupAttribute .associativity), .mark .colon, .keyword (.associativity a)]
  | assignment b => [.keyword (.groupAttribute .assignment), .mark .colon, .keyword (.truth b)]
  | relation kind first more =>
    .keyword (.groupAttribute (.relation kind)) :: .mark .colon :: .name first ::
      more.flatMap fun name => [.mark .comma, .name name]

/-- The associativity that an attribute sets. -/
def associativity? : WrittenAttribute → Option Associativity
  | associativity a => some a
  | _ => none

/-- The assignment mark that an attribute sets. -/
def assignment? : WrittenAttribute → Option Bool
  | assignment b => some b
  | _ => none

/-- The relations that an attribute adds, by kind and name. -/
def relations : WrittenAttribute → List (RelationKind × String)
  | relation kind first more => (first :: more).map (kind, ·)
  | _ => []

/-- All names in an attribute are spelled as names. -/
def WellSpelled : WrittenAttribute → Prop
  | relation _ first more => ∀ name ∈ first :: more, isName name = true
  | _ => True

end WrittenAttribute

/-- An item as it is written. The attributes of a group stand in any order and number. -/
inductive WrittenItem where
  | group (name : String) (attributes : List WrittenAttribute)
  | operator (fixity : Fixity) (name : String) (groupName : Option String)
  | expression (e : Node)

namespace WrittenItem

/-- The tokens of an item. -/
def lexemes : WrittenItem → List Lexeme
  | group name attributes =>
    .keyword .precedenceGroup :: .name name :: .mark .openBrace ::
      (attributes.flatMap (·.lexemes) ++ [.mark .closeBrace])
  | operator fixity name groupName =>
    [.keyword (.fixity fixity), .keyword .operator, .operator name] ++
      groupName.elim [] fun g => [.mark .colon, .name g]
  | expression e => e.lexemes

/-- The words of an item: its tokens, or the text of its expression. -/
def words : WrittenItem → Except Fault (List String)
  | expression e => do
    let text ← e.render
    pure [text]
  | i => .ok (i.lexemes.map (·.text))

/-- What an item says: the relations of a group in their order, its last associativity and its last
assignment mark, or none and false where there are none. -/
def meaning : WrittenItem → Item Node
  | group name attributes =>
    .declaration (.group {
      name
      associativity := (attributes.filterMap (·.associativity?)).getLast?.getD .none
      relations := (attributes.flatMap (·.relations)).map fun (kind, target) => { kind, target }
      assignment := (attributes.filterMap (·.assignment?)).getLast?.getD false })
  | operator fixity name groupName => .declaration (.operator { name, fixity, groupName })
  | expression e => .node (.statement e .unknown)

/-- The names and the operator of an item are spelled as such, and its expression can stand in a
statement. -/
def WellSpelled : WrittenItem → Prop
  | group name attributes => isName name = true ∧ ∀ a ∈ attributes, a.WellSpelled
  | operator _ name groupName => isOperatorName name = true ∧ ∀ g ∈ groupName, isName g = true
  | expression e => e.SourceTree

/-- The words of some items in a row. -/
def allWords : List WrittenItem → Except Fault (List String)
  | [] => .ok []
  | i :: rest => do
    let first ← i.words
    let others ← allWords rest
    pure (first ++ others)

end WrittenItem

/-! ## Spaced words -/

/-- A text has some words in a row: blanks stand between them, and may stand in front of the first
and behind the last. -/
inductive Spaced : List String → List Char → Prop
  | nil {blanks : List Char} (hblanks : ∀ c ∈ blanks, isBlank c = true) : Spaced [] blanks
  | cons {word : String} {words : List String} {blanks rest : List Char}
      (hblanks : ∀ c ∈ blanks, isBlank c = true) (hend : ∀ c ∈ rest.head?, isBlank c = true)
      (hrest : Spaced words rest) : Spaced (word :: words) (blanks ++ (word.toList ++ rest))

/-- A text has some words in a row, laid out in some way: blanks and comments stand between them, of
which a blank is the first, and others may stand in front of the first word and behind the last. -/
inductive LaidOut : List String → List Char → Prop
  | nil {layout : List Char} (hlayout : IsLayout layout) : LaidOut [] layout
  | cons {word : String} {words : List String} {layout rest : List Char} (hlayout : IsLayout layout)
      (hend : ∀ c ∈ rest.head?, isBlank c = true) (hrest : LaidOut words rest) :
      LaidOut (word :: words) (layout ++ (word.toList ++ rest))

/-- Words with blanks between them are laid out. -/
theorem Spaced.laidOut {words : List String} {text : List Char} (h : Spaced words text) :
    LaidOut words text := by
  induction h with
  | nil hblanks => exact .nil (isLayout_of_blanks hblanks)
  | cons hblanks hend _ ih => exact .cons (isLayout_of_blanks hblanks) hend ih

/-- Words that are put together with blanks between them are spaced. -/
theorem spaced_intercalate {separator : String} (hne : separator.toList ≠ [])
    (hblanks : separator.toList.all isBlank = true) (words : List String) :
    Spaced words (separator.intercalate words).toList := by
  rw [List.all_eq_true] at hblanks
  -- every word but the first follows a separator, and so may start anywhere
  have hmore (words : List String) :
      (∀ c ∈ (words.flatMap fun word => separator.toList ++ word.toList).head?,
        isBlank c = true) ∧
      Spaced words (words.flatMap fun word => separator.toList ++ word.toList) := by
    induction words with
    | nil => exact ⟨nofun, .nil (List.forall_mem_nil _)⟩
    | cons word words ih =>
      rw [List.flatMap_cons, List.append_assoc]
      refine ⟨fun c hc => ?_, .cons hblanks ih.1 ih.2⟩
      rw [List.head?_append_of_ne_nil _ hne] at hc
      exact hblanks c (List.mem_of_mem_head? hc)
  cases words with
  | nil => exact .nil (List.forall_mem_nil _)
  | cons word words =>
    rw [Node.toList_intercalate_cons]
    exact .cons (List.forall_mem_nil _) (hmore words).1 (hmore words).2

/-- Some words spell some lexemes, wherever each word ends at a blank or with the text. -/
inductive Spells : List String → List Lexeme → Prop
  | nil : Spells [] []
  | cons {word : String} {words : List String} {ls ms : List Lexeme} (hne : ls ≠ [])
      (hword : ∀ rest : List Char, (∀ c ∈ rest.head?, isBlank c = true) →
        Written ls (word.toList ++ rest) rest)
      (hwords : Spells words ms) : Spells (word :: words) (ls ++ ms)

variable {words more : List String} {ls ms : List Lexeme} {text : List Char}

theorem Spells.append (h : Spells words ls) (hmore : Spells more ms) :
    Spells (words ++ more) (ls ++ ms) := by
  induction h with
  | nil => exact hmore
  | cons hne hword _ ih =>
    rw [List.append_assoc]
    exact .cons hne hword ih

/-- Every lexeme is spelled by its own text. -/
theorem spells_map_text (ls : List Lexeme) : Spells (ls.map (·.text)) ls := by
  induction ls with
  | nil => exact .nil
  | cons l ls ih =>
    show Spells (l.text :: ls.map (·.text)) ([l] ++ ls)
    refine .cons (List.cons_ne_nil _ _) (fun rest hrest => .singleton ?_) ih
    intro c hc
    obtain ⟨hname, hop⟩ := of_isBlank (hrest c hc)
    obtain ⟨terminal, text⟩ := l
    cases terminal with
    | operator => exact hop
    | mark | endOfText => rfl
    | _ => exact hname

/-- Words that are laid out spell their lexemes, up to layout at the end. -/
theorem LaidOut.exists_written (h : LaidOut words text) (hspells : Spells words ls) :
    ∃ rest, IsLayout rest ∧ Written ls text rest := by
  induction h generalizing ls with
  | @nil layout hlayout =>
    cases hspells
    exact ⟨layout, hlayout, .nil _⟩
  | @cons _ _ _ rest hlayout hend _ ih =>
    cases hspells with
    | cons hne hword hwords =>
      obtain ⟨tail, htail, hmore⟩ := ih hwords
      exact ⟨tail, htail, ((hword rest hend).prepend hne hlayout).append hmore⟩

/-- Every item has words, and they spell its tokens. -/
theorem WrittenItem.exists_words {i : WrittenItem} (h : i.WellSpelled) :
    ∃ words, i.words = .ok words ∧ Spells words i.lexemes := by
  cases i with
  | group name attributes => exact ⟨_, rfl, spells_map_text _⟩
  | operator fixity name groupName => exact ⟨_, rfl, spells_map_text _⟩
  | expression e =>
    -- the text of an expression is one word for all of its tokens
    obtain ⟨text, htext, hwritten⟩ := h.1.spelled
    refine ⟨[text], by rw [words, htext]; rfl, ?_⟩
    rw [lexemes, ← List.append_nil e.lexemes]
    refine .cons h.1.lexemes_ne_nil (fun rest hrest => hwritten rest fun c hc => ?_) .nil
    exact (of_isBlank (hrest c hc)).1

/-- Items that are well spelled have words, and these spell the lexemes of all of them. -/
theorem WrittenItem.exists_allWords {written : List WrittenItem}
    (h : ∀ i ∈ written, i.WellSpelled) :
    ∃ words, allWords written = .ok words ∧ Spells words (written.flatMap (·.lexemes)) := by
  induction written with
  | nil => exact ⟨[], rfl, .nil⟩
  | cons i written ih =>
    rw [List.forall_mem_cons] at h
    obtain ⟨first, hfirst, hspells⟩ := exists_words h.1
    obtain ⟨others, hothers, hmore⟩ := ih h.2
    exact ⟨first ++ others, by rw [allWords, hfirst, hothers]; rfl, hspells.append hmore⟩

/-! ## Reading a group -/

section Group

variable {file : Option String} {items : List (Item Node)} {draft draft' draft'' : GroupDraft}
  {state : State} {P : Progress → Prop} {attributes others : List WrittenAttribute}

/-- A state between the attributes of a group. -/
def InBody (draft : GroupDraft) (state : State) : Prop :=
  state = .groupBody draft ∨ ∃ kind, state = .relationEnd draft kind

/-- What is read at the beginning of the body of a group is read behind an attribute as well. -/
theorem LeadsTo.of_groupBody (h : LeadsTo file ⟨items, .groupBody draft⟩ ls P) (hne : ls ≠ [])
    (hbody : InBody draft state) : LeadsTo file ⟨items, state⟩ ls P := by
  rcases hbody with rfl | ⟨kind, rfl⟩
  · exact h
  · refine h.of_first hne fun t q _ htakes hstep => ⟨?_, ?_⟩
    · exact htakes.mono id id id rfl (List.subset_cons_self _ _)
    · have hbody : bodyStep file items draft t = some q := hstep
      -- only a comma goes on with the names, and it has no place in the body
      simp only [Progress.step]
      split
      · next ht =>
        rw [bodyStep, ht] at hbody
        cases hbody
      · exact hbody

/-- The relations of a group by kind and name, in their order. -/
def GroupDraft.related (draft : GroupDraft) : List (RelationKind × String) :=
  draft.relations.reverse.map fun r => (r.kind, r.target)

/-- Some attributes take a group from one form to another. -/
structure Adds (draft : GroupDraft) (attributes : List WrittenAttribute) (draft' : GroupDraft) :
    Prop where
  name : draft'.name = draft.name
  associativity : draft'.associativity =
    (attributes.filterMap (·.associativity?)).getLast?.getD draft.associativity
  assignment : draft'.assignment =
    (attributes.filterMap (·.assignment?)).getLast?.getD draft.assignment
  related : draft'.related = draft.related ++ attributes.flatMap (·.relations)

theorem Adds.nil (draft : GroupDraft) : Adds draft [] draft where
  name := rfl
  associativity := rfl
  assignment := rfl
  related := (List.append_nil _).symm

theorem Adds.append (h : Adds draft attributes draft') (hmore : Adds draft' others draft'') :
    Adds draft (attributes ++ others) draft'' where
  name := hmore.name.trans h.name
  associativity := by
    rw [hmore.associativity, h.associativity, List.filterMap_append, List.getLast?_append,
      Option.getD_or]
  assignment := by
    rw [hmore.assignment, h.assignment, List.filterMap_append, List.getLast?_append,
      Option.getD_or]
  related := by rw [hmore.related, h.related, List.flatMap_append, List.append_assoc]

/-- Commas with names behind them go on with a list of related groups. -/
theorem leadsTo_names {kind : RelationKind} {names : List String}
    (hnames : ∀ name ∈ names, isName name = true) (draft : GroupDraft) :
    LeadsTo file ⟨items, .relationEnd draft kind⟩
      (names.flatMap fun name => [.mark .comma, .name name]) fun q =>
        ∃ relations : List Relation,
          relations.map (fun r => (r.kind, r.target)) = names.map (kind, ·) ∧
          q = ⟨items, .relationEnd
            { draft with relations := relations.reverse ++ draft.relations } kind⟩ := by
  induction names generalizing draft with
  | nil => exact .nil ⟨[], rfl, rfl⟩
  | cons name names ih =>
    rw [List.forall_mem_cons] at hnames
    rw [List.flatMap_cons]
    refine .cons ⟨List.mem_cons_self, rfl⟩ fun _ _ => ⟨_, rfl, ?_⟩
    refine .cons ⟨rfl, hnames.1, List.forall_mem_nil _⟩ fun start stop => ⟨_, rfl, ?_⟩
    -- relations are kept in reverse until the group is closed
    refine (ih hnames.2 _).mono ?_
    rintro q ⟨relations, hrelations, rfl⟩
    refine ⟨⟨kind, name, Token.span ⟨.name, name, start, stop⟩ file⟩ :: relations, ?_, ?_⟩
    · rw [List.map_cons, List.map_cons, hrelations]
    · rw [List.reverse_cons, List.append_assoc]
      rfl

/-- Every attribute keyword is accepted in the body of a group. -/
theorem groupAttribute_mem_attributes (a : GroupAttribute) :
    .groupAttribute a ∈ Keyword.attributes := by
  cases a with
  | relation kind => cases kind <;> decide
  | _ => decide

theorem associativity_mem_associativities (a : Associativity) :
    .associativity a ∈ Keyword.associativities := by
  cases a <;> decide

theorem truth_mem_truthValues (b : Bool) : .truth b ∈ Keyword.truthValues := by
  cases b <;> decide

/-- An attribute that is well spelled adds what it says to the draft of its group. -/
theorem leadsTo_attribute {a : WrittenAttribute} (h : a.WellSpelled) (draft : GroupDraft) :
    LeadsTo file ⟨items, .groupBody draft⟩ a.lexemes fun q =>
      ∃ draft' state, Adds draft [a] draft' ∧ InBody draft' state ∧ q = ⟨items, state⟩ := by
  cases a with
  | associativity a =>
    refine .cons ⟨groupAttribute_mem_attributes _, rfl⟩ fun _ _ => ⟨_, rfl, ?_⟩
    refine .cons ⟨List.mem_cons_self, rfl⟩ fun _ _ => ⟨_, rfl, ?_⟩
    refine .cons ⟨associativity_mem_associativities a, rfl⟩ fun _ _ => ⟨_, rfl, ?_⟩
    have hadds : Adds draft [.associativity a] { draft with associativity := a } :=
      ⟨rfl, rfl, rfl, (List.append_nil _).symm⟩
    exact .nil ⟨_, _, hadds, .inl rfl, rfl⟩
  | assignment b =>
    refine .cons ⟨groupAttribute_mem_attributes _, rfl⟩ fun _ _ => ⟨_, rfl, ?_⟩
    refine .cons ⟨List.mem_cons_self, rfl⟩ fun _ _ => ⟨_, rfl, ?_⟩
    refine .cons ⟨truth_mem_truthValues b, rfl⟩ fun _ _ => ⟨_, rfl, ?_⟩
    have hadds : Adds draft [.assignment b] { draft with assignment := b } :=
      ⟨rfl, rfl, rfl, (List.append_nil _).symm⟩
    exact .nil ⟨_, _, hadds, .inl rfl, rfl⟩
  | relation kind first more =>
    obtain ⟨hfirst, hmore⟩ := List.forall_mem_cons.mp h
    refine .cons ⟨groupAttribute_mem_attributes _, rfl⟩ fun _ _ => ⟨_, rfl, ?_⟩
    refine .cons ⟨List.mem_cons_self, rfl⟩ fun _ _ => ⟨_, rfl, ?_⟩
    refine .cons ⟨rfl, hfirst, List.forall_mem_nil _⟩ fun _ _ => ⟨_, rfl, ?_⟩
    -- the first target is read with the keyword, and the others behind their commas
    refine (leadsTo_names hmore _).mono ?_
    rintro q ⟨relations, hrelations, rfl⟩
    refine ⟨{ draft with relations := relations.reverse ++ _ }, _, ⟨rfl, rfl, rfl, ?_⟩,
      .inr ⟨kind, rfl⟩, rfl⟩
    simp [GroupDraft.related, GroupDraft.relate, WrittenAttribute.relations, hrelations,
      Lexeme.name]

/-- So do attributes one after another. -/
theorem leadsTo_attributes (h : ∀ a ∈ attributes, a.WellSpelled) (hbody : InBody draft state) :
    LeadsTo file ⟨items, state⟩ (attributes.flatMap (·.lexemes)) fun q =>
      ∃ draft' state, Adds draft attributes draft' ∧ InBody draft' state ∧
        q = ⟨items, state⟩ := by
  induction attributes generalizing draft state with
  | nil => exact .nil ⟨draft, state, .nil draft, hbody, rfl⟩
  | cons a attributes ih =>
    rw [List.forall_mem_cons] at h
    have hne : a.lexemes ≠ [] := by cases a <;> exact List.cons_ne_nil _ _
    refine .append ((leadsTo_attribute h.1 draft).of_groupBody hne hbody) ?_
    rintro q ⟨draft', state', hadds, hbody', rfl⟩
    refine (ih h.2 hbody').mono ?_
    rintro q ⟨draft'', state'', hmore, hbody'', rfl⟩
    exact ⟨draft'', state'', hadds.append hmore, hbody'', rfl⟩

/-- What has been added to a group without attributes is what the attributes say. -/
theorem Adds.alike {start stop : Position} {name : String}
    (h : Adds { start, name } attributes draft) :
    Node.alikeItem (draft.item file stop) (WrittenItem.group name attributes).meaning = true := by
  have hrelated : draft.relations.reverse.map (fun r => (r.kind, r.target)) =
      attributes.flatMap (·.relations) := h.related
  have hpairs : (fun r : Relation => (r.kind, r.target)) ∘ (fun (kind, target) =>
      { kind, target }) = id := rfl
  rw [GroupDraft.item, WrittenItem.meaning, Node.alikeItem, Declaration.alike,
    PrecedenceGroup.alike, h.name, h.associativity, h.assignment, hrelated, List.map_map, hpairs,
    List.map_id]
  simp

end Group

/-! ## Reading items -/

section Items

variable {file : Option String} {p : Progress} {before : List (Item Node)} {i : WrittenItem}

/-- The tokens of a group are read between items, and between items the group has been read. -/
theorem leadsTo_group {name : String} {attributes : List WrittenAttribute}
    (h : (WrittenItem.group name attributes).WellSpelled) :
    LeadsTo file ⟨before, .ready⟩ (WrittenItem.group name attributes).lexemes fun q =>
      ∃ j, Node.alikeItem j (WrittenItem.group name attributes).meaning = true ∧
        q.close file = some (j :: before) := by
  obtain ⟨hname, hattributes⟩ := h
  refine .cons ⟨List.mem_cons_self, rfl⟩ fun _ _ => ⟨_, rfl, ?_⟩
  refine .cons ⟨rfl, hname, List.forall_mem_nil _⟩ fun _ _ => ⟨_, rfl, ?_⟩
  refine .cons ⟨List.mem_cons_self, rfl⟩ fun _ _ => ⟨_, rfl, ?_⟩
  refine .append (leadsTo_attributes hattributes (.inl rfl)) ?_
  rintro q ⟨draft, state, hadds, hbody, rfl⟩
  have hclose : LeadsTo file ⟨before, .groupBody draft⟩ [.mark .closeBrace] fun q =>
      ∃ j, Node.alikeItem j (WrittenItem.group name attributes).meaning = true ∧
        q.close file = some (j :: before) :=
    .cons ⟨List.mem_cons_self, rfl⟩ fun _ _ => ⟨_, rfl, .nil ⟨_, hadds.alike, rfl⟩⟩
  -- behind a list of targets the brace ends that list too
  exact hclose.of_groupBody (List.cons_ne_nil _ _) hbody

/-- The tokens of an operator are read between items. Its group is the last token, and without one
the next item ends it. -/
theorem leadsTo_operator {fixity : Fixity} {name : String} {groupName : Option String}
    (h : (WrittenItem.operator fixity name groupName).WellSpelled) :
    LeadsTo file ⟨before, .ready⟩ (WrittenItem.operator fixity name groupName).lexemes fun q =>
      ∃ j, Node.alikeItem j (WrittenItem.operator fixity name groupName).meaning = true ∧
        q.close file = some (j :: before) := by
  obtain ⟨hname, hgroup⟩ := h
  have hfixity : .fixity fixity ∈ Keyword.itemStarts := by cases fixity <;> decide
  have halike (start stop : Position) : Node.alikeItem
      (operatorItem file fixity start stop name groupName)
      (WrittenItem.operator fixity name groupName).meaning = true := by
    rw [operatorItem, WrittenItem.meaning, Node.alikeItem, Declaration.alike, Operator.alike]
    simp
  refine .cons ⟨hfixity, rfl⟩ fun _ _ => ⟨_, rfl, ?_⟩
  refine .cons ⟨List.mem_cons_self, rfl⟩ fun _ _ => ⟨_, rfl, ?_⟩
  refine .cons ⟨rfl, hname⟩ fun _ _ => ⟨_, rfl, ?_⟩
  -- an operator without a group may be closed where it stands
  cases groupName with
  | none => exact .nil ⟨_, halike _ _, rfl⟩
  | some g =>
    refine .cons ⟨List.mem_cons_self, rfl⟩ fun _ _ => ⟨_, rfl, ?_⟩
    refine .cons ⟨rfl, hgroup g rfl, List.forall_mem_nil _⟩ fun _ _ => ⟨_, rfl, ?_⟩
    exact .nil ⟨_, halike _ _, rfl⟩

/-- Behind a complete item any item is read, and is complete itself. -/
theorem leadsTo_item (h : i.WellSpelled) (hclose : p.close file = some before) :
    LeadsTo file p i.lexemes fun q =>
      ∃ j, Node.alikeItem j i.meaning = true ∧ q.close file = some (j :: before) := by
  cases i with
  | group name attributes => exact (leadsTo_group h).of_ready (List.cons_ne_nil _ _) hclose
  | operator fixity name groupName =>
    exact (leadsTo_operator h).of_ready (List.cons_ne_nil _ _) hclose
  | expression e =>
    refine (leadsTo_of_sourceTree h hclose).mono ?_
    rintro q ⟨elements, halike, rfl⟩
    refine ⟨_, ?_, rfl⟩
    rw [statementNode, WrittenItem.meaning, Node.alikeItem, Node.alike]
    exact halike

/-- Items that are well spelled are read as items like what they mean, in order. -/
theorem leadsTo_items {written : List WrittenItem} (h : ∀ i ∈ written, i.WellSpelled)
    (hclose : p.close file = some before) :
    LeadsTo file p (written.flatMap (·.lexemes)) fun q =>
      ∃ read, Node.alikeItems read (written.map (·.meaning)) = true ∧
        q.close file = some (read.reverse ++ before) := by
  induction written generalizing p before with
  | nil => exact .nil ⟨[], by rw [List.map_nil, Node.alikeItems], hclose⟩
  | cons i written ih =>
    rw [List.forall_mem_cons] at h
    -- the parser is left where it may close this item, and so where the next one may begin
    refine .append (leadsTo_item h.1 hclose) ?_
    rintro q ⟨j, halike, hq⟩
    refine (ih h.2 hq).mono ?_
    rintro r ⟨read, hread, hr⟩
    refine ⟨j :: read, ?_, ?_⟩
    · rw [List.map_cons, Node.alikeItems, halike, hread]
      rfl
    · rw [List.reverse_cons, List.append_assoc]
      exact hr

/-- Spaced words that spell the tokens of some items are read as these items. -/
theorem exists_parseSource {written : List WrittenItem} {text : String}
    (h : ∀ i ∈ written, i.WellSpelled) (hspells : Spells words (written.flatMap (·.lexemes)))
    (hspaced : Spaced words text.toList) (file : Option String) :
    ∃ source, parseSource text file = .ok source ∧ source.file = file ∧
      Node.alikeItems source.items (written.map (·.meaning)) = true := by
  obtain ⟨rest, hlayout, hwritten⟩ := hspaced.laidOut.exists_written hspells
  refine parseSource_of_leadsTo (P := fun items => Node.alikeItems items _ = true) hwritten
    hlayout ?_
  refine (leadsTo_items h (p := {}) rfl).mono ?_
  rintro q ⟨read, halike, hq⟩
  refine ⟨read.reverse, by rw [hq, List.append_nil], ?_⟩
  rw [List.reverse_reverse]
  exact halike

/-- **Well-spelled items are read back.** Any items in a row, their names and operators well spelled
and their expressions such as a statement can hold, have words, and every text that has these words
with blanks between them is read as exactly these items in their order, spans aside. -/
theorem parseSource_of_spaced {written : List WrittenItem} (h : ∀ i ∈ written, i.WellSpelled)
    (file : Option String) :
    ∃ words, WrittenItem.allWords written = .ok words ∧
      ∀ text : String, Spaced words text.toList →
        ∃ source, parseSource text file = .ok source ∧ source.file = file ∧
          Node.alikeItems source.items (written.map (·.meaning)) = true := by
  obtain ⟨words, hwords, hspells⟩ := WrittenItem.exists_allWords h
  exact ⟨words, hwords, fun text hspaced => exists_parseSource h hspells hspaced file⟩

/-- Keywords are names in the place of a name, also as the group of an operator and in parentheses
behind one. -/
theorem parseSource_of_spaced_keywords :
    ∃ source, parseSource (" ".intercalate ["precedencegroup", "left", "\x7b", "higherThan", ":",
        "infix", ",", "left", "associativity", ":", "right", "associativity", ":", "left", "\x7d",
        "infix", "operator", "+", ":", "left", "(infix)", "prefix", "operator", "+"]) none =
          .ok source ∧ source.file = none ∧
      Node.alikeItems source.items [
        .declaration (.group {
          name := "left"
          associativity := .left
          relations := [⟨.higherThan, "infix", .unknown⟩, ⟨.higherThan, "left", .unknown⟩] }),
        .declaration (.operator { name := "+", groupName := some "left" }),
        .node (.statement (.paren (.name "infix" .unknown) .unknown) .unknown),
        .declaration (.operator { name := "+", fixity := .prefixOp })] = true := by
  have hgroup : (WrittenItem.group "left" [.relation .higherThan "infix" ["left"],
      .associativity .right, .associativity .left]).WellSpelled := by
    refine ⟨by decide, List.forall_mem_cons.mpr ⟨?_, by simp [WrittenAttribute.WellSpelled]⟩⟩
    exact List.forall_mem_cons.mpr ⟨by decide, List.forall_mem_singleton.mpr (by decide)⟩
  have hoperator : (WrittenItem.operator .infixOp "+" (some "left")).WellSpelled :=
    ⟨by decide, fun g hg => Option.some.inj hg ▸ by decide⟩
  have hexpression :
      (WrittenItem.expression (.paren (.name "infix" .unknown) .unknown)).WellSpelled :=
    ⟨.paren (.name (by decide)), by decide⟩
  have hprefix : (WrittenItem.operator .prefixOp "+" none).WellSpelled := ⟨by decide, nofun⟩
  obtain ⟨words, hwords, hread⟩ := parseSource_of_spaced (List.forall_mem_cons.mpr ⟨hgroup,
    List.forall_mem_cons.mpr ⟨hoperator, List.forall_mem_cons.mpr ⟨hexpression,
      List.forall_mem_singleton.mpr hprefix⟩⟩⟩) none
  cases hwords
  exact hread _ (spaced_intercalate (by decide) (by decide) _)

end Items

end OperatorFold.Source
