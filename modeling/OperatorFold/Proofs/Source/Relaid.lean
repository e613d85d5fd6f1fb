import OperatorFold.Proofs.Source.Items
import OperatorFold.Proofs.Tree.Alike

/-! # Texts with the same tokens

What a text means depends on its tokens alone. When the tokens of a text that is read are laid out
in another way, with blanks and comments between them, the new text is read as well, and as the same
items (`parseSource_relaid`). Tokens that stand side by side in the first text, as a keyword and the
one behind it may, are apart in the second, so they are found there again one by one.

A token is read as the same one again only where the reader has a place for the same terminals. That
it has follows from one relation between two runs, that they are alike but for places
(`Progress.Alike`), which holds at their beginning and which tokens of the same lexeme keep
(`Progress.Alike.exists_step`).
-/

namespace OperatorFold.Source

/-! ## Runs that differ in places -/

/-- Chains that a parenthesis has interrupted have the same structure. -/
def Frame.Alike (f g : Frame) : Prop := Node.alikeAll f.before g.before = true

/-- Groups that have been read as far as each other say the same. -/
structure GroupDraft.Alike (draft other : GroupDraft) : Prop where
  name : draft.name = other.name
  associativity : draft.associativity = other.associativity
  assignment : draft.assignment = other.assignment
  relations : draft.relations.map (fun r => (r.kind, r.target)) =
    other.relations.map fun r => (r.kind, r.target)

/-- Two states say the same of the item at hand, but for places. -/
inductive State.Alike : State → State → Prop
  | ready : Alike .ready .ready
  | operatorDeclared (f : Fixity) (start start' : Position) (name : String)
      (stop stop' : Position) :
      Alike (.operatorDeclared f start name stop) (.operatorDeclared f start' name stop')
  | operand {frames frames' : List Frame} {elements elements' : List Node}
      (hframes : List.Forall₂ Frame.Alike frames frames')
      (helements : Node.alikeAll elements elements' = true) :
      Alike (.operand frames elements) (.operand frames' elements')
  | chain {frames frames' : List Frame} {elements elements' : List Node}
      (hframes : List.Forall₂ Frame.Alike frames frames')
      (helements : Node.alikeAll elements elements' = true) :
      Alike (.chain frames elements) (.chain frames' elements')
  | fixity (f : Fixity) (start start' : Position) : Alike (.fixity f start) (.fixity f start')
  | operatorName (f : Fixity) (start start' : Position) :
      Alike (.operatorName f start) (.operatorName f start')
  | operatorGroup (f : Fixity) (start start' : Position) (name : String) :
      Alike (.operatorGroup f start name) (.operatorGroup f start' name)
  | groupName (start start' : Position) : Alike (.groupName start) (.groupName start')
  | groupOpen (start start' : Position) (name : String) :
      Alike (.groupOpen start name) (.groupOpen start' name)
  | groupBody {draft draft' : GroupDraft} (h : draft.Alike draft') :
      Alike (.groupBody draft) (.groupBody draft')
  | attributeColon {draft draft' : GroupDraft} (h : draft.Alike draft') (attr : GroupAttribute) :
      Alike (.attributeColon draft attr) (.attributeColon draft' attr)
  | associativity {draft draft' : GroupDraft} (h : draft.Alike draft') :
      Alike (.associativity draft) (.associativity draft')
  | assignment {draft draft' : GroupDraft} (h : draft.Alike draft') :
      Alike (.assignment draft) (.assignment draft')
  | relationTarget {draft draft' : GroupDraft} (h : draft.Alike draft') (kind : RelationKind) :
      Alike (.relationTarget draft kind) (.relationTarget draft' kind)
  | relationEnd {draft draft' : GroupDraft} (h : draft.Alike draft') (kind : RelationKind) :
      Alike (.relationEnd draft kind) (.relationEnd draft' kind)

/-- Two runs have read the same items and stand in the same state, but for places. -/
structure Progress.Alike (p q : Progress) : Prop where
  items : Node.alikeItems p.items q.items = true
  state : p.state.Alike q.state

/-- States that are alike have a place for the same terminals. -/
theorem State.Alike.accepted {s s' : State} (h : s.Alike s') : s.accepted = s'.accepted := by
  cases h <;> rfl

variable {file file' : Option String} {frames frames' : List Frame}
  {elements elements' : List Node} {e e' : Node} {draft draft' : GroupDraft}
  {items items' : List (Item Node)} {p p' q : Progress} {state : State} {t u : Token}

/-! ## What is built -/

/-- Like elements make like chains. -/
theorem alike_chainNode (h : Node.alikeAll elements elements' = true) :
    (chainNode file elements).alike (chainNode file' elements') = true := by
  have hlengths := (Node.alikeAll_iff_forall₂.mp h).length_eq
  by_cases hlength : elements.length = 1
  · obtain ⟨e, rfl⟩ := List.length_eq_one_iff.mp hlength
    obtain ⟨e', rfl⟩ := List.length_eq_one_iff.mp (hlengths.symm.trans hlength)
    rw [Node.alikeAll, Bool.and_eq_true] at h
    exact h.1
  · obtain ⟨span, hnode⟩ := chainNode_eq_sequence file hlength
    obtain ⟨span', hnode'⟩ := chainNode_eq_sequence file' (hlengths ▸ hlength)
    rw [hnode, hnode', Node.alike]
    exact Node.alikeAll_reverse h

/-- Like expressions make like statements. -/
theorem alikeItem_statementNode (h : e.alike e' = true) :
    Node.alikeItem (.node (statementNode file e)) (.node (statementNode file' e')) = true := by
  rw [Node.alikeItem, statementNode, statementNode, Node.alike]
  exact h

/-- A declaration of an operator is like one of the same data that stands elsewhere. -/
theorem alikeItem_operatorItem (f : Fixity) (name : String) (groupName : Option String)
    (start start' stop stop' : Position) :
    Node.alikeItem (operatorItem file f start stop name groupName)
      (operatorItem file' f start' stop' name groupName) = true := by
  rw [operatorItem, operatorItem, Node.alikeItem]
  exact Operator.alike_iff.mpr ⟨rfl, rfl, rfl⟩

/-- Like drafts make like declarations of groups. -/
theorem GroupDraft.Alike.item (h : draft.Alike draft') (stop stop' : Position) :
    Node.alikeItem (draft.item file stop) (draft'.item file' stop') = true := by
  rw [GroupDraft.item, GroupDraft.item, Node.alikeItem]
  refine PrecedenceGroup.alike_iff.mpr ⟨h.name, h.associativity, h.assignment, ?_⟩
  rw [List.map_reverse, List.map_reverse, h.relations]

/-- Like drafts stay alike when the same group is related to them. -/
theorem GroupDraft.Alike.relate (h : draft.Alike draft') (kind : RelationKind)
    (ht : t.lexeme = u.lexeme) : (draft.relate file kind t).Alike (draft'.relate file' kind u) where
  name := h.name
  associativity := h.associativity
  assignment := h.assignment
  relations := by
    have htext : t.text = u.text := congrArg Lexeme.text ht
    simp only [GroupDraft.relate, List.map_cons, h.relations, htext]

theorem alikeItems_cons {i i' : Item Node} (h : Node.alikeItem i i' = true)
    (hitems : Node.alikeItems items items' = true) :
    Node.alikeItems (i :: items) (i' :: items') = true := by
  rw [Node.alikeItems, h, hitems]
  rfl

theorem alikeAll_cons (h : e.alike e' = true)
    (helements : Node.alikeAll elements elements' = true) :
    Node.alikeAll (e :: elements) (e' :: elements') = true := by
  rw [Node.alikeAll, h, helements]
  rfl

/-! ## One token -/

/-- Where the item at hand is complete in one run, it is in the other. -/
theorem Progress.Alike.exists_close (h : p.Alike q) (hclose : p.close file = some items) :
    ∃ items', q.close file' = some items' ∧ Node.alikeItems items items' = true := by
  obtain ⟨_, state⟩ := p
  obtain ⟨others, state'⟩ := q
  obtain ⟨hitems, hstate⟩ := h
  -- states that are alike are of one kind, and so both may be closed or neither
  cases hstate with
  | ready =>
    cases hclose
    exact ⟨others, rfl, hitems⟩
  | operatorDeclared f start start' name stop stop' =>
    cases hclose
    exact ⟨_, rfl, alikeItems_cons (alikeItem_operatorItem ..) hitems⟩
  | chain hframes helements =>
    cases hframes with
    | nil =>
      cases hclose
      exact ⟨_, rfl, alikeItems_cons (alikeItem_statementNode (alike_chainNode helements)) hitems⟩
    | cons => cases hclose
  | _ => cases hclose

/-- The same token begins an operand in front of like elements, and leaves like states. -/
theorem exists_beginOperand (hframes : List.Forall₂ Frame.Alike frames frames')
    (helements : Node.alikeAll elements elements' = true) (ht : t.lexeme = u.lexeme)
    (h : beginOperand file frames elements t = some state) :
    ∃ state', beginOperand file' frames' elements' u = some state' ∧ state.Alike state' := by
  obtain ⟨terminal, text, start, stop⟩ := t
  obtain ⟨_, _, start', stop'⟩ := u
  -- the step asks for the lexeme alone, and the places go into spans
  cases ht
  cases terminal with
  | name =>
    cases h
    exact ⟨_, rfl, .chain hframes (alikeAll_cons (by simp [Node.alike]) helements)⟩
  | integer =>
    cases h
    exact ⟨_, rfl, .chain hframes (alikeAll_cons (by simp [Node.alike]) helements)⟩
  | mark m =>
    cases m with
    | openParen =>
      cases h
      have hframe : Frame.Alike ⟨elements, start⟩ ⟨elements', start'⟩ := helements
      exact ⟨_, rfl, .operand (.cons hframe hframes) (by rw [Node.alikeAll])⟩
    | _ => cases h
  | _ => cases h

/-- The same token begins an item wherever it stands, and leaves like states. -/
theorem exists_beginItem (ht : t.lexeme = u.lexeme) (h : beginItem file t = some state) :
    ∃ state', beginItem file' u = some state' ∧ state.Alike state' := by
  obtain ⟨terminal, text, start, stop⟩ := t
  obtain ⟨_, _, start', stop'⟩ := u
  have hlexeme := ht
  cases ht
  simp only [beginItem] at h ⊢
  split at h
  · cases h
    exact ⟨_, rfl, .groupName start start'⟩
  · cases h
    exact ⟨_, rfl, .fixity _ start start'⟩
  · exact exists_beginOperand .nil (by rw [Node.alikeAll]) hlexeme h

/-- The first token of an item begins one in both runs. -/
theorem Progress.Alike.exists_startItem (h : p.Alike q) (ht : t.lexeme = u.lexeme)
    (hstart : p.startItem file t = some p') :
    ∃ q', q.startItem file' u = some q' ∧ p'.Alike q' := by
  obtain ⟨before, state, hclose, hbegin, rfl⟩ := of_startItem hstart
  obtain ⟨before', hclose', hbefore⟩ := h.exists_close hclose
  obtain ⟨state', hbegin', hstate⟩ := exists_beginItem ht hbegin
  refine ⟨⟨before', state'⟩, ?_, hbefore, hstate⟩
  rw [startItem, hclose', hbegin']
  rfl

/-- The same token goes on with like drafts, and leaves like states. -/
theorem exists_bodyStep (hitems : Node.alikeItems items items' = true) (h : draft.Alike draft')
    (ht : t.lexeme = u.lexeme) (hstep : bodyStep file items draft t = some p') :
    ∃ q', bodyStep file' items' draft' u = some q' ∧ p'.Alike q' := by
  obtain ⟨terminal, text, start, stop⟩ := t
  obtain ⟨_, _, start', stop'⟩ := u
  cases ht
  simp only [bodyStep] at hstep ⊢
  split at hstep <;> cases hstep
  · exact ⟨_, rfl, hitems, .attributeColon h _⟩
  · exact ⟨_, rfl, alikeItems_cons (h.item stop stop') hitems, .ready⟩

/-- The same attribute begins in like drafts and leaves like states. -/
theorem State.Alike.beginAttribute (h : draft.Alike draft') (attr : GroupAttribute) :
    (beginAttribute draft attr).Alike (beginAttribute draft' attr) := by
  cases attr with
  | associativity => exact .associativity h
  | assignment => exact .assignment h
  | relation kind => exact .relationTarget h kind

/-- A token takes runs that are alike to runs that are alike. -/
theorem Progress.Alike.exists_step (h : p.Alike q) (ht : t.lexeme = u.lexeme)
    (hstep : p.step file t = some p') : ∃ q', q.step file' u = some q' ∧ p'.Alike q' := by
  have hstart (hstart : p.startItem file t = some p') :
      ∃ q', q.startItem file' u = some q' ∧ p'.Alike q' :=
    h.exists_startItem ht hstart
  have hbody {items items' : List (Item Node)} {draft draft' : GroupDraft}
      (hitems : Node.alikeItems items items' = true) (h : draft.Alike draft')
      (hbody : bodyStep file items draft t = some p') :
      ∃ q', bodyStep file' items' draft' u = some q' ∧ p'.Alike q' :=
    exists_bodyStep hitems h ht hbody
  obtain ⟨items, state⟩ := p
  obtain ⟨items', state'⟩ := q
  obtain ⟨hitems, hstate⟩ := h
  obtain ⟨terminal, text, start, stop⟩ := t
  obtain ⟨_, _, start', stop'⟩ := u
  have hlexeme := ht
  cases ht
  cases hstate <;> simp only [Progress.step] at hstep ⊢
  case ready => exact hstart hstep
  case operatorDeclared f _ _ name _ _ =>
    split at hstep
    · cases hstep
      exact ⟨_, rfl, hitems, .operatorGroup f _ _ name⟩
    · exact hstart hstep
  case operand hframes helements =>
    obtain ⟨state, hbegin, rfl⟩ := Option.map_eq_some_iff.mp hstep
    obtain ⟨state', hbegin', hstate⟩ := exists_beginOperand hframes helements hlexeme hbegin
    exact ⟨⟨items', state'⟩, by rw [hbegin']; rfl, hitems, hstate⟩
  case chain hframes helements =>
    split at hstep
    · cases hstep
      exact ⟨_, rfl, hitems, .operand hframes (alikeAll_cons (by simp [Node.alike]) helements)⟩
    · cases hstep
      cases hframes with
      | cons hframe hframes =>
        refine ⟨_, rfl, hitems, .chain hframes (alikeAll_cons ?_ hframe)⟩
        rw [Node.alike]
        exact alike_chainNode helements
    · next hoperator hparen =>
      -- what is neither an operator nor a parenthesis that closes is so in both runs
      split
      · exact absurd rfl hoperator
      · cases hframes with
        | cons => exact absurd rfl (hparen _ _ rfl)
      · exact hstart hstep
  case fixity f _ _ =>
    split at hstep <;> cases hstep
    exact ⟨_, rfl, hitems, .operatorName f _ _⟩
  case operatorName f _ _ =>
    split at hstep <;> cases hstep
    exact ⟨_, rfl, hitems, .operatorDeclared f _ _ text _ _⟩
  case operatorGroup =>
    split at hstep <;> cases hstep
    exact ⟨_, rfl, alikeItems_cons (alikeItem_operatorItem ..) hitems, .ready⟩
  case groupName =>
    split at hstep <;> cases hstep
    exact ⟨_, rfl, hitems, .groupOpen _ _ text⟩
  case groupOpen name =>
    split at hstep <;> cases hstep
    exact ⟨_, rfl, hitems, .groupBody ⟨rfl, rfl, rfl, rfl⟩⟩
  case groupBody h => exact hbody hitems h hstep
  case attributeColon h attr =>
    split at hstep <;> cases hstep
    exact ⟨_, rfl, hitems, .beginAttribute h attr⟩
  case associativity h =>
    split at hstep <;> cases hstep
    exact ⟨_, rfl, hitems, .groupBody { h with associativity := rfl }⟩
  case assignment h =>
    split at hstep <;> cases hstep
    exact ⟨_, rfl, hitems, .groupBody { h with assignment := rfl }⟩
  case relationTarget h kind =>
    split at hstep <;> cases hstep
    exact ⟨_, rfl, hitems, .relationEnd (h.relate kind hlexeme) kind⟩
  case relationEnd h kind =>
    split at hstep
    · cases hstep
      exact ⟨_, rfl, hitems, .relationTarget h kind⟩
    · exact hbody hitems h hstep

/-! ## Whole texts -/

/-- What some tokens lead to in one run, tokens of the same lexemes lead to in a run like it. -/
theorem Reads.leadsTo {ts : List Token} (h : Reads file p ts p') (halike : p.Alike q) :
    LeadsTo file' q (ts.map Token.lexeme) fun q' => p'.Alike q' := by
  induction h generalizing q with
  | nil => exact .nil halike
  | @cons _ _ _ t _ htakes hstep _ ih =>
    refine .cons (halike.state.accepted ▸ htakes) fun start stop => ?_
    have hlexeme : t.lexeme = (⟨t.terminal, t.text, start, stop⟩ : Token).lexeme := rfl
    obtain ⟨q', hstep', halike'⟩ := halike.exists_step hlexeme hstep
    exact ⟨q', hstep', ih halike'⟩

/-- **Layout does not matter.** Let a text be read. Every text that has the same tokens in a row,
with blanks and comments between them of which a blank is the first, is read as well, and as the
same items, spans aside. -/
theorem parseSource_relaid {s : String} {source : SourceFile}
    (h : parseSource s file = .ok source) {s' : String}
    (hlaid : LaidOut ((tokens s file).map (·.text)) s'.toList) (file' : Option String) :
    ∃ again, parseSource s' file' = .ok again ∧ again.file = file' ∧
      Node.alikeItems again.items source.items = true := by
  obtain ⟨-, q, before, hreads, hclose, hitems⟩ := reads_tokens h
  have htexts : (tokens s file).map (·.text) =
      ((tokens s file).map Token.lexeme).map (·.text) := by
    rw [List.map_map]
    rfl
  rw [htexts] at hlaid
  obtain ⟨rest, hlayout, hwritten⟩ := hlaid.exists_written (spells_map_text _)
  have hstart : Progress.Alike {} {} := ⟨by rw [Node.alikeItems], .ready⟩
  -- the two runs stay alike from the start, and so are the items they close with
  refine parseSource_of_leadsTo (P := fun items => Node.alikeItems items source.items = true)
    hwritten hlayout ((hreads.leadsTo hstart).mono ?_)
  intro q' halike
  obtain ⟨before', hclose', hbefore⟩ := halike.exists_close hclose
  refine ⟨before', hclose', ?_⟩
  rw [hitems]
  exact Node.alikeItems_symm (Node.alikeItems_reverse hbefore)

/-- Nothing stands between a literal and the name behind it, nor around an operator, until they are
laid out. -/
theorem parseSource_relaid_adjacent :
    (tokens "0xg+y" none).map (·.text) = ["0", "xg", "+", "y"] ∧
      ∃ source, parseSource "0xg+y" none = .ok source ∧
        ∃ again, parseSource "0 // x\n xg\r\n+\ty" none = .ok again ∧ again.file = none ∧
          Node.alikeItems again.items source.items = true := by
  have htokens : (tokens "0xg+y" none).map (·.text) = ["0", "xg", "+", "y"] := by decide +kernel
  have hread : (parseSource "0xg+y" none).toOption.isSome = true := by decide +kernel
  have hlaid : LaidOut ["0", "xg", "+", "y"] "0 // x\n xg\r\n+\ty".toList := by
    have hcomment : IsLayout (' ' :: '/' :: '/' :: ([' ', 'x'] ++ '\n' :: [' '])) :=
      .blank rfl (.comment (by decide) (.blank rfl .nil))
    have hreturn : IsLayout ['\r', '\n'] := .blank rfl (.blank rfl .nil)
    have htab : IsLayout ['\t'] := .blank rfl .nil
    refine .cons .nil ?_ (.cons hcomment ?_ (.cons hreturn ?_ (.cons htab nofun (.nil .nil))))
    all_goals
      rintro c ⟨⟩
      rfl
  cases hparse : parseSource "0xg+y" none with
  | error e => simp [hparse, Except.toOption] at hread
  | ok source =>
    exact ⟨htokens, source, rfl, parseSource_relaid hparse (htokens ▸ hlaid) none⟩

end OperatorFold.Source
