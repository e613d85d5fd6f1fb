import OperatorFold.Proofs.Fold.Sequence
import OperatorFold.Proofs.Source.Reading
import OperatorFold.Proofs.Tree.Render

/-! # Expressions in source form

The trees that a source text can spell (`Node.FlatShaped`): names, integer literals, parenthesized
trees, and flat sequences of these with operators between them. The text of such a tree spells its
lexemes (`FlatShaped.spelled`), and the reader makes of them a tree of the same structure
(`read_of_flatShaped`), inside any number of open parentheses.

At the beginning of an item a name must not be a word with which another item begins. Behind an item
that is complete, the lexemes of a tree that keeps to this are read as in front of an operand
(`leadsTo_of_sourceTree`).
-/

namespace OperatorFold

open Source

namespace Node

/-! ## The lexemes of a tree -/

mutual

/-- The lexemes of a tree from left to right. -/
def lexemes : Node → List Lexeme
  | name ident _ => [.name ident]
  | integer text _ => [.integer text]
  | operator use => [.operator use.name]
  | paren inner _ => .mark .openParen :: (lexemes inner ++ [.mark .closeParen])
  | sequence elements _ => lexemesAll elements
  | binary left op right _ => lexemes left ++ (lexemes op ++ lexemes right)
  | statement expr _ => lexemes expr
  | sourceFile .. | bare => []

/-- The lexemes of some nodes in a row. -/
def lexemesAll : List Node → List Lexeme
  | [] => []
  | n :: rest => lexemes n ++ lexemesAll rest

end

/-- The trees that a source text can spell. The elements of a sequence are operands with operators
between them, and no operand is a sequence itself. -/
inductive FlatShaped : Node → Prop
  | name {ident : String} {span : Span} (h : isName ident = true) : FlatShaped (.name ident span)
  | integer {text : String} {span : Span} (h : isInteger text = true) :
      FlatShaped (.integer text span)
  | paren {inner : Node} {span : Span} (h : FlatShaped inner) : FlatShaped (.paren inner span)
  | sequence {first : Node} {rest : List (OperatorUse × Node)} {span : Span} (hne : rest ≠ [])
      (hoperands : ∀ n ∈ first :: rest.map Prod.snd, FlatShaped n)
      (hflat : ∀ n ∈ first :: rest.map Prod.snd, n.isSequence = false)
      (hoperators : ∀ entry ∈ rest, isOperatorName entry.1.name = true) :
      FlatShaped (.sequence (first :: spell rest) span)

/-- The trees that a statement can hold: the first lexeme is no word with which another item
begins. -/
def SourceTree (e : Node) : Prop :=
  e.FlatShaped ∧ ∀ k ∈ Keyword.itemStarts, e.lexemes.head? ≠ some (.name k.text)

variable {e : Node}

/-- Every tree of this shape has a lexeme. -/
theorem FlatShaped.lexemes_ne_nil (h : e.FlatShaped) : e.lexemes ≠ [] := by
  induction h with
  | name => exact List.cons_ne_nil _ _
  | integer => exact List.cons_ne_nil _ _
  | paren => exact List.cons_ne_nil _ _
  | sequence _ _ _ _ ih =>
    rw [lexemes, lexemesAll]
    exact List.append_ne_nil_of_left_ne_nil (ih _ List.mem_cons_self) _

/-! ## The text of a tree -/

/-- Behind the first text, every other one has the separator in front of it. -/
theorem toList_intercalate_cons (separator text : String) (texts : List String) :
    (separator.intercalate (text :: texts)).toList =
      text.toList ++ texts.flatMap fun more => separator.toList ++ more.toList := by
  induction texts generalizing text with
  | nil => rw [String.intercalate_singleton, List.flatMap_nil, List.append_nil]
  | cons more texts ih =>
    rw [String.intercalate_cons_cons, String.toList_append, String.toList_append, ih,
      List.flatMap_cons, List.append_assoc, List.append_assoc]

/-- No word goes on with the rest of a text. -/
def EndsWord (rest : List Char) : Prop := ∀ c ∈ rest.head?, isNameChar c = false

/-- A word ends at a character that is none of names. -/
theorem endsWord_cons {c : Char} (hc : isNameChar c = false) (rest : List Char) :
    EndsWord (c :: rest) := by
  intro d hd
  cases hd
  exact hc

/-- A tree has a text, and this spells its lexemes in front of anything with which no word goes
on. -/
def Spelled (e : Node) : Prop :=
  ∃ text, e.render = .ok text ∧
    ∀ rest, EndsWord rest → Written e.lexemes (text.toList ++ rest) rest

/-- Operators with operands behind them are spelled if the operands are, with a blank in front of
everything. -/
theorem exists_renderAll_spell {rest : List (OperatorUse × Node)}
    (hoperators : ∀ entry ∈ rest, isOperatorName entry.1.name = true)
    (hoperands : ∀ entry ∈ rest, entry.2.Spelled ∧ entry.2.lexemes ≠ []) :
    ∃ texts, renderAll (spell rest) = .ok texts ∧ ∀ tail, EndsWord tail →
      EndsWord ((texts.flatMap fun text => " ".toList ++ text.toList) ++ tail) ∧
      Written (lexemesAll (spell rest))
        ((texts.flatMap fun text => " ".toList ++ text.toList) ++ tail) tail := by
  have hblank : IsLayout " ".toList := .blank (by decide) .nil
  induction rest with
  | nil => exact ⟨[], rfl, fun tail htail => ⟨htail, .nil tail⟩⟩
  | cons entry rest ih =>
    obtain ⟨use, n⟩ := entry
    rw [List.forall_mem_cons] at hoperators hoperands
    obtain ⟨⟨text, hn, hwritten⟩, hne⟩ := hoperands.1
    obtain ⟨texts, hrest, hmore⟩ := ih hoperators.2 hoperands.2
    refine ⟨use.name :: text :: texts, ?_, fun tail htail => ?_⟩
    · rw [spell_cons]
      exact renderAll_cons_eq_ok.mpr ⟨use.name, text :: texts, rfl,
        renderAll_cons_eq_ok.mpr ⟨text, texts, hn, hrest, rfl⟩, rfl⟩
    · obtain ⟨hend, hwrittenRest⟩ := hmore tail htail
      have hoperand := (hwritten _ hend).prepend hne hblank
      -- each operator ends at the blank in front of its operand
      have hop : (Lexeme.operator use.name).EndsAt (" ".toList ++ (text.toList ++
          ((texts.flatMap fun text => " ".toList ++ text.toList) ++ tail))) := by
        intro c hc
        have hspace : ' ' = c := Option.some.inj hc
        have hend : isOperatorChar ' ' = false := by decide
        exact hspace ▸ hend
      rw [List.flatMap_cons, List.flatMap_cons, List.append_assoc, List.append_assoc,
        List.append_assoc, List.append_assoc]
      refine ⟨endsWord_cons (by decide) _, ?_⟩
      exact .cons hblank hop (hoperand.append hwrittenRest)

/-- The text of a tree spells its lexemes. -/
theorem FlatShaped.spelled (h : e.FlatShaped) : e.Spelled := by
  induction h with
  | @name ident _ h =>
    exact ⟨ident, rfl, fun rest hrest => Written.singleton (l := .name ident) hrest⟩
  | @integer text _ h =>
    exact ⟨text, rfl, fun rest hrest => Written.singleton (l := .integer text) hrest⟩
  | @paren inner _ _ ih =>
    obtain ⟨text, hinner, hwritten⟩ := ih
    refine ⟨s!"({text})", ?_, fun rest hrest => ?_⟩
    · rw [render, hinner]
      rfl
    · -- the inner text may stand in front of the parenthesis, which ends every word
      have hclose : (Lexeme.mark .closeParen).EndsAt rest := fun _ _ => rfl
      have hinside := hwritten (')' :: rest) (endsWord_cons (by decide) _)
      have hopen : (Lexeme.mark .openParen).EndsAt (text.toList ++ ')' :: rest) := fun _ _ => rfl
      have htext : s!"({text})" = "(" ++ text ++ ")" := rfl
      rw [lexemes, htext, String.toList_append, String.toList_append, List.append_assoc,
        List.append_assoc]
      exact .cons .nil hopen (hinside.append (Written.singleton hclose))
  | @sequence first rest span hne hoperands hflat hoperators ih =>
    obtain ⟨text, hfirst, hwritten⟩ := ih first List.mem_cons_self
    have hspelled : ∀ entry ∈ rest, entry.2.Spelled ∧ entry.2.lexemes ≠ [] := by
      intro entry hentry
      have hmem : entry.2 ∈ first :: rest.map Prod.snd :=
        List.mem_cons_of_mem _ (List.mem_map_of_mem hentry)
      exact ⟨ih _ hmem, (hoperands _ hmem).lexemes_ne_nil⟩
    obtain ⟨texts, hrest, hmore⟩ := exists_renderAll_spell hoperators hspelled
    refine ⟨" ".intercalate (text :: texts), ?_, fun tail htail => ?_⟩
    · rw [render, renderAll_cons_eq_ok.mpr ⟨text, texts, hfirst, hrest, rfl⟩]
      rfl
    · obtain ⟨hend, hwrittenRest⟩ := hmore tail htail
      rw [toList_intercalate_cons, List.append_assoc, lexemes, lexemesAll]
      exact (hwritten _ hend).append hwrittenRest

end Node

/-! ## Reading a tree -/

namespace Source

variable {file : Option String} {e : Node}

/-- The lexemes of an operand are read as one operand like it. -/
def ReadAsOperand (e : Node) : Prop :=
  ∀ file items frames elements, LeadsTo file ⟨items, .operand frames elements⟩ e.lexemes fun q =>
    ∃ e' : Node, e'.alike e = true ∧ q = ⟨items, .chain frames (e' :: elements)⟩

/-- The lexemes of a tree are read as a chain that makes a tree like it. -/
def ReadAsChain (e : Node) : Prop :=
  ∀ file items frames, LeadsTo file ⟨items, .operand frames []⟩ e.lexemes fun q =>
    ∃ elements : List Node, (chainNode file elements).alike e = true ∧
      q = ⟨items, .chain frames elements⟩

/-- What is read as an operand is read as a chain of this operand. -/
theorem ReadAsOperand.readAsChain (h : ReadAsOperand e) : ReadAsChain e := by
  intro file items frames
  refine (h file items frames []).mono ?_
  rintro q ⟨e', halike, rfl⟩
  exact ⟨[e'], halike, rfl⟩

theorem readAsOperand_name {ident : String} {span : Span} (h : isName ident = true) :
    ReadAsOperand (.name ident span) := by
  intro file items frames elements
  refine .cons ⟨rfl, h, List.forall_mem_nil _⟩ fun start stop => ⟨_, rfl, .nil ⟨_, ?_, rfl⟩⟩
  rw [Node.alike]
  exact beq_self_eq_true ident

theorem readAsOperand_integer {text : String} {span : Span} (h : isInteger text = true) :
    ReadAsOperand (.integer text span) := by
  intro file items frames elements
  refine .cons ⟨rfl, h⟩ fun start stop => ⟨_, rfl, .nil ⟨_, ?_, rfl⟩⟩
  rw [Node.alike]
  exact beq_self_eq_true text

/-- A parenthesis interrupts the chain in front of it; the one that closes it ends the chain inside
and goes on with the other one. -/
theorem ReadAsChain.paren {span : Span} (h : ReadAsChain e) : ReadAsOperand (.paren e span) := by
  intro file items frames elements
  rw [Node.lexemes]
  -- the chain inside begins anew, with the outer one on the stack
  refine .cons ⟨List.mem_cons_self, rfl⟩ fun start stop => ⟨_, rfl, .append (h file items _) ?_⟩
  rintro q ⟨inside, halike, rfl⟩
  refine .cons ⟨List.mem_cons_of_mem _ List.mem_cons_self, rfl⟩ fun start' stop' =>
    ⟨_, rfl, .nil ⟨_, ?_, rfl⟩⟩
  rw [Node.alike]
  exact halike

/-- Operators with operands behind them go on with a chain. -/
theorem leadsTo_spell {rest : List (OperatorUse × Node)}
    (hoperators : ∀ entry ∈ rest, isOperatorName entry.1.name = true)
    (hoperands : ∀ entry ∈ rest, ReadAsOperand entry.2) (file : Option String)
    (items : List (Item Node)) (frames : List Frame) (elements : List Node) :
    LeadsTo file ⟨items, .chain frames elements⟩ (Node.lexemesAll (Node.spell rest)) fun q =>
      ∃ more, Node.alikeAll more (Node.spell rest) = true ∧
        q = ⟨items, .chain frames (more.reverse ++ elements)⟩ := by
  induction rest generalizing elements with
  | nil => exact .nil ⟨[], by rw [Node.spell, List.flatMap_nil, Node.alikeAll], rfl⟩
  | cons entry rest ih =>
    obtain ⟨use, n⟩ := entry
    rw [List.forall_mem_cons] at hoperators hoperands
    rw [Node.spell_cons, Node.lexemesAll, Node.lexemesAll, Node.lexemes, List.singleton_append]
    refine .cons ⟨rfl, hoperators.1⟩ fun start stop => ⟨_, rfl, .append (hoperands.1 _ _ _ _) ?_⟩
    -- the operator and its operand are now the last two elements of the chain
    rintro q ⟨n', halike, rfl⟩
    refine (ih hoperators.2 hoperands.2 _).mono ?_
    rintro q ⟨more, hmore, rfl⟩
    refine ⟨.operator ⟨use.name, Token.span ⟨.operator, use.name, start, stop⟩ file⟩ :: n' :: more,
      ?_, ?_⟩
    · rw [Node.alikeAll, Node.alikeAll, Node.alike, halike, hmore]
      simp
    · rw [List.reverse_cons, List.reverse_cons, List.append_assoc, List.append_assoc]
      rfl

/-- More than one element make a sequence. -/
theorem chainNode_eq_sequence (file : Option String) {elements : List Node}
    (h : elements.length ≠ 1) :
    ∃ span, chainNode file elements = .sequence elements.reverse span := by
  unfold chainNode
  split
  · exact absurd rfl h
  · exact ⟨_, rfl⟩

/-- An operand and more operands with operators in front of them are read as one chain. -/
theorem readAsChain_sequence {first : Node} {rest : List (OperatorUse × Node)} {span : Span}
    (hne : rest ≠ []) (hoperators : ∀ entry ∈ rest, isOperatorName entry.1.name = true)
    (hfirst : ReadAsOperand first) (hrest : ∀ entry ∈ rest, ReadAsOperand entry.2) :
    ReadAsChain (.sequence (first :: Node.spell rest) span) := by
  intro file items frames
  rw [Node.lexemes, Node.lexemesAll]
  refine .append (hfirst file items frames []) ?_
  rintro q ⟨first', halike, rfl⟩
  refine (leadsTo_spell hoperators hrest file items frames [first']).mono ?_
  rintro q ⟨more, hmore, rfl⟩
  refine ⟨more.reverse ++ [first'], ?_, rfl⟩
  -- a chain of one element would be the element itself and no sequence
  have hlength : (more.reverse ++ [first']).length ≠ 1 := by
    obtain ⟨⟨use, n⟩, others, rfl⟩ := List.exists_cons_of_ne_nil hne
    cases more with
    | nil => simp [Node.spell_cons, Node.alikeAll] at hmore
    | cons n more => simp
  obtain ⟨span', hnode⟩ := chainNode_eq_sequence file hlength
  rw [hnode, List.reverse_append, List.reverse_reverse, Node.alike, List.reverse_singleton,
    List.singleton_append, Node.alikeAll, halike, hmore]
  rfl

/-- The lexemes of a flat tree are read as a tree like it. -/
theorem read_of_flatShaped (h : e.FlatShaped) :
    (e.isSequence = false → ReadAsOperand e) ∧ ReadAsChain e := by
  induction h with
  | name h => exact ⟨fun _ => readAsOperand_name h, (readAsOperand_name h).readAsChain⟩
  | integer h => exact ⟨fun _ => readAsOperand_integer h, (readAsOperand_integer h).readAsChain⟩
  | paren _ ih => exact ⟨fun _ => ih.2.paren, ih.2.paren.readAsChain⟩
  | @sequence first rest span hne hoperands hflat hoperators ih =>
    have hread : ∀ n ∈ first :: rest.map Prod.snd, ReadAsOperand n := fun n hn =>
      (ih n hn).1 (hflat n hn)
    rw [List.forall_mem_cons, List.forall_mem_map] at hread
    refine ⟨fun h => ?_, readAsChain_sequence hne hoperators hread.1 hread.2⟩
    cases h

/-! ## Reading a statement -/

/-- A token that begins an operand begins an item as well, unless it is a name that stands for the
beginning of another item. -/
theorem begins_of_operand {items : List (Item Node)} {t : Token} {q : Progress}
    (hfirst : ∀ k ∈ Keyword.itemStarts, t.lexeme ≠ .name k.text)
    (htakes : (State.operand [] []).accepted.Takes t.lexeme)
    (hstep : Progress.step file ⟨items, .operand [] []⟩ t = some q) :
    Accepted.itemStart.Takes t.lexeme ∧ Progress.step file ⟨items, .ready⟩ t = some q := by
  obtain ⟨terminal, text, start, stop⟩ := t
  cases terminal with
  | name =>
    -- where an item may start, a name is an operand unless it spells the start of another item
    have hfree : ∀ k ∈ Accepted.itemStart.keywords, k.text ≠ text := by
      rintro k hk rfl
      exact hfirst k hk rfl
    exact ⟨⟨rfl, htakes.2.1, hfree⟩, hstep⟩
  | integer => exact ⟨htakes, hstep⟩
  | mark m =>
    obtain ⟨hm, htext⟩ := htakes
    cases List.mem_singleton.mp hm
    exact ⟨⟨List.mem_cons_self, htext⟩, hstep⟩
  | _ => cases hstep

/-- Behind an item that is complete, the lexemes of a tree that a statement can hold are read as a
tree like it. -/
theorem leadsTo_of_sourceTree {p : Progress} {before : List (Item Node)} (h : e.SourceTree)
    (hclose : p.close file = some before) :
    LeadsTo file p e.lexemes fun q =>
      ∃ elements : List Node, (chainNode file elements).alike e = true ∧
        q = ⟨before, .chain [] elements⟩ := by
  obtain ⟨hshape, hfirst⟩ := h
  have hready : LeadsTo file ⟨before, .ready⟩ e.lexemes fun q =>
      ∃ elements : List Node, (chainNode file elements).alike e = true ∧
        q = ⟨before, .chain [] elements⟩ := by
    refine ((read_of_flatShaped hshape).2 file before []).of_first hshape.lexemes_ne_nil ?_
    intro t q hhead htakes hstep
    refine begins_of_operand (fun k hk heq => ?_) htakes hstep
    exact hfirst k hk (hhead.trans (congrArg some heq))
  exact hready.of_ready hshape.lexemes_ne_nil hclose

end Source

end OperatorFold
