import OperatorFold.Proofs.Reporting
import OperatorFold.Proofs.Source.Lexemes
import OperatorFold.Source.Parser

/-! # Reading a text lexeme by lexeme

A text spells some lexemes (`Written`) if it consists of them, in their order, with blanks and
comments between them as one likes, as long as each lexeme ends where the text goes on.

Where a token stands depends on the text alone, and not on what the reader has a place for. So a
text that spells some lexemes has its tokens beforehand, and whatever a run over tokens (`Reads`)
comes to, reading the text comes to as well (`Written.exists_tokens`). In turn every text that is
read to the end has been run through (`reads_tokens`).

Places matter only to spans. What some lexemes lead to (`LeadsTo`) is therefore stated for whatever
tokens there are for them, and proved lexeme by lexeme; `parseSource_of_leadsTo` takes it to texts.
-/

namespace OperatorFold.Source

/-! ## Layout -/

/-- Blanks and comments, each comment with the end of its line. -/
inductive IsLayout : List Char → Prop
  | nil : IsLayout []
  | blank {c : Char} {rest : List Char} (hc : isBlank c = true) (h : IsLayout rest) :
      IsLayout (c :: rest)
  | comment {text rest : List Char} (htext : '\n' ∉ text) (h : IsLayout rest) :
      IsLayout ('/' :: '/' :: (text ++ '\n' :: rest))

theorem IsLayout.append {layout more : List Char} (h : IsLayout layout) (hmore : IsLayout more) :
    IsLayout (layout ++ more) := by
  induction h with
  | nil => exact hmore
  | blank hc _ ih => exact .blank hc ih
  | comment htext _ ih =>
    rw [List.cons_append, List.cons_append, List.append_assoc, List.cons_append]
    exact .comment htext ih

theorem isLayout_of_blanks {blanks : List Char} (h : ∀ c ∈ blanks, isBlank c = true) :
    IsLayout blanks := by
  induction blanks with
  | nil => exact .nil
  | cons c rest ih =>
    exact .blank (h c List.mem_cons_self) (ih fun d hd => h d (List.mem_cons_of_mem _ hd))

section Skip

variable {c : Char} {text rest layout : List Char} {p : Position}

theorem skipLayout_blank (hc : isBlank c = true) :
    skipLayout false (c :: rest) p = skipLayout false rest (p.after c) := by
  simp only [isBlank, Bool.or_eq_true, decide_eq_true_eq] at hc
  rcases hc with (((rfl | rfl) | rfl) | rfl) | rfl <;> rfl

/-- Nothing is skipped in front of a character that is no blank and begins no comment. -/
theorem skipLayout_stop (hc : isBlank c = false) (hcomment : ¬slashes <+: c :: rest) :
    skipLayout false (c :: rest) p = ⟨c :: rest, p⟩ := by
  rw [skipLayout, hc]
  · rfl
  · rintro more rfl rfl
    exact hcomment (List.prefix_append slashes more)

/-- Within a comment, all is skipped up to the end of its line. -/
theorem exists_skipLayout_comment (htext : '\n' ∉ text) :
    ∃ p', skipLayout true (text ++ '\n' :: rest) p = skipLayout false rest p' := by
  induction text generalizing p with
  | nil => exact ⟨_, rfl⟩
  | cons c text ih =>
    rw [List.mem_cons, not_or] at htext
    obtain ⟨p', hp'⟩ := ih (p := p.after c) htext.2
    refine ⟨p', ?_⟩
    rw [List.cons_append, skipLayout, decide_eq_true (Ne.symm htext.1), hp']

/-- Layout in front of a text is passed over. -/
theorem IsLayout.exists_skip (h : IsLayout layout) (rest : List Char) (p : Position) :
    ∃ p', skipLayout false (layout ++ rest) p = skipLayout false rest p' := by
  induction h generalizing p with
  | nil => exact ⟨p, rfl⟩
  | blank hc _ ih =>
    rw [List.cons_append, skipLayout_blank hc]
    exact ih _
  | comment htext _ ih =>
    obtain ⟨p₁, hp₁⟩ := exists_skipLayout_comment (p := (p.after '/').after '/') htext
    obtain ⟨p', hp'⟩ := ih p₁
    refine ⟨p', ?_⟩
    rw [List.cons_append, List.cons_append, List.append_assoc, List.cons_append, skipLayout, hp₁,
      hp']

/-- What is left begins with neither a blank nor a comment. -/
theorem of_skipLayout {inComment : Bool} (h : (skipLayout inComment text p).rest = c :: rest) :
    isBlank c = false ∧ ¬slashes <+: c :: rest := by
  fun_induction skipLayout inComment text p with
  | case1 => cases h
  | case2 _ _ _ ih => exact ih h
  | case3 _ _ ih => exact ih h
  | case4 _ _ _ _ _ ih => exact ih h
  | case5 p d more hcomment hblank =>
    cases h
    refine ⟨Bool.eq_false_iff.mpr hblank, ?_⟩
    rintro ⟨tail, htail⟩
    injection htail with hd htail
    exact hcomment tail hd.symm htail.symm

end Skip

/-! ## One lexeme -/

variable {a : Accepted} {l : Lexeme} {layout rest : List Char}

/-- A lexeme keeps its place where as many other terminals have one as before, or more, but no
further keyword. -/
theorem Accepted.Takes.mono {b : Accepted} (h : a.Takes l) (hname : a.name = true → b.name = true)
    (hinteger : a.integer = true → b.integer = true)
    (hoperator : a.operator = true → b.operator = true) (hkeywords : b.keywords = a.keywords)
    (hmarks : a.marks ⊆ b.marks) : b.Takes l := by
  obtain ⟨terminal, s⟩ := l
  cases terminal with
  | name => exact ⟨hname h.1, h.2.1, hkeywords ▸ h.2.2⟩
  | integer => exact ⟨hinteger h.1, h.2⟩
  | operator => exact ⟨hoperator h.1, h.2⟩
  | keyword k => exact ⟨hkeywords ▸ h.1, h.2⟩
  | mark m => exact ⟨hmarks h.1, h.2⟩
  | endOfText => exact h.elim

/-- A lexeme with a place begins with neither a blank nor a comment. -/
theorem Accepted.Takes.front (h : a.Takes l) (hend : l.EndsAt rest) :
    ∃ c more, l.text.toList = c :: more ∧ isBlank c = false ∧
      ¬slashes <+: l.text.toList ++ rest := by
  have hword {s : String} {c : Char} {more : List Char} (hs : s.toList = c :: more)
      (hc : isNameChar c = true) : ∃ c more, s.toList = c :: more ∧ isBlank c = false ∧
        ¬slashes <+: s.toList ++ rest := by
    refine ⟨c, more, hs, (of_isNameChar hc).2, fun hslashes => ?_⟩
    rw [hs, List.cons_append, slashes, List.cons_prefix_cons] at hslashes
    rw [← hslashes.1] at hc
    cases hc
  obtain ⟨terminal, s⟩ := l
  cases terminal with
  | name =>
    obtain ⟨c, more, hs, hc, -⟩ := exists_of_isName h.2.1
    exact hword hs (isNameChar_iff.mpr (.inl hc))
  | keyword k =>
    obtain ⟨-, rfl⟩ := h
    obtain ⟨c, more, hs, hc, -⟩ := exists_of_isName k.isName_text
    exact hword hs (isNameChar_iff.mpr (.inl hc))
  | integer =>
    rcases exists_of_isInteger h.2 with ⟨c, more, hs, -⟩ | ⟨c, more, hs, hc, -⟩
    · exact hword hs (by decide)
    · exact hword hs (isNameChar_iff.mpr (.inr hc))
  | operator =>
    obtain ⟨hne, hall, hcomment⟩ := isOperatorName_iff.mp h.2
    obtain ⟨c, more, hs⟩ := List.exists_cons_of_ne_nil hne
    refine ⟨c, more, hs, (of_isOperatorChar (hall c (hs ▸ List.mem_cons_self))).2, ?_⟩
    intro hslashes
    rw [hs] at hslashes hcomment
    cases more with
    | nil =>
      -- a single slash ends only where no other one follows
      obtain ⟨-, tail, htail⟩ := List.cons_prefix_cons.mp hslashes
      have hrest : '/' :: tail = rest := htail
      have hslash : isOperatorChar '/' = false := hend '/' (by rw [← hrest]; rfl)
      cases hslash
    | cons d more =>
      obtain ⟨hc, hslashes⟩ := List.cons_prefix_cons.mp hslashes
      obtain ⟨hd, -⟩ := List.cons_prefix_cons.mp hslashes
      rw [← hc, ← hd] at hcomment
      exact hcomment (List.prefix_append slashes more)
  | mark m =>
    obtain ⟨-, rfl⟩ := h
    obtain ⟨-, hop, hblank⟩ := m.char_class
    refine ⟨m.char, [], String.toList_singleton _, hblank, fun hslashes => ?_⟩
    rw [String.toList_singleton, List.singleton_append, slashes, List.cons_prefix_cons] at hslashes
    rw [← hslashes.1] at hop
    cases hop
  | endOfText => exact h.elim

/-- Behind layout there stands one token for a lexeme, and it is read wherever the lexeme has a
place. -/
theorem exists_token (hend : l.EndsAt rest) (hlayout : IsLayout layout) (p : Position) :
    ∃ t next, t.lexeme = l ∧ next.rest = rest ∧ ∀ a : Accepted, a.Takes l →
      a.read ⟨layout ++ (l.text.toList ++ rest), p⟩ = .token t next := by
  obtain ⟨p', hskip⟩ := hlayout.exists_skip (l.text.toList ++ rest) p
  refine ⟨Cursor.token ⟨l.text.toList ++ rest, p'⟩ l.terminal l.text.toList.length,
    Cursor.advance ⟨l.text.toList ++ rest, p'⟩ l.text.toList.length, ?_, ?_, fun a ha => ?_⟩
  · rw [Token.lexeme, Cursor.token, List.take_left, String.ofList_toList]
  · rw [Cursor.advance, List.drop_left]
  · obtain ⟨c, more, htext, hblank, hcomment⟩ := ha.front hend
    have hlexeme := Accepted.lexeme?_of_takes ha hend
    rw [htext, List.cons_append] at hskip hcomment hlexeme ⊢
    rw [skipLayout_stop hblank hcomment] at hskip
    simp only [Accepted.read, Cursor.skip, hskip, hlexeme, List.length_cons]

/-- Whatever is read is a lexeme with a place. -/
theorem Accepted.takes_of_read {cursor next : Cursor} {t : Token}
    (h : a.read cursor = .token t next) : a.Takes t.lexeme := by
  rw [read] at h
  split at h
  · cases h
  · next c more hrest =>
    split at h
    · next hlexeme =>
      cases h
      have hcomment := (of_skipLayout hrest).2
      rw [← hrest] at hcomment
      exact takes_of_lexeme? hcomment hlexeme
    · split at h <;> cases h

/-- Behind the last lexeme the text is finished. -/
theorem Accepted.read_layout (a : Accepted) (hlayout : IsLayout layout) (p : Position) :
    a.read ⟨layout, p⟩ = .finished := by
  obtain ⟨p', hskip⟩ := hlayout.exists_skip [] p
  rw [List.append_nil] at hskip
  simp only [read, Cursor.skip, hskip, skipLayout]

/-! ## Runs -/

/-- The reader gets from one progress to another by some tokens, each of which has a place where it
comes. -/
inductive Reads (file : Option String) : Progress → List Token → Progress → Prop
  | nil (p : Progress) : Reads file p [] p
  | cons {p q r : Progress} {t : Token} {ts : List Token} (htakes : p.state.accepted.Takes t.lexeme)
      (hstep : p.step file t = some q) (hrest : Reads file q ts r) : Reads file p (t :: ts) r

variable {file : Option String} {p q r : Progress} {ts us : List Token}

theorem Reads.append (h : Reads file p ts q) (hmore : Reads file q us r) :
    Reads file p (ts ++ us) r := by
  induction h with
  | nil => exact hmore
  | cons htakes hstep _ ih => exact .cons htakes hstep (ih hmore)

/-- What becomes of the next token decides how the reading goes on. -/
theorem readItems_eq (file : Option String) (p : Progress) (last : Position) (cursor : Cursor) :
    readItems file p last cursor =
      match p.state.accepted.read cursor with
      | .refused e => .error e
      | .finished =>
        match p.close file with
        | some items => .ok items.reverse
        | none => .error (.unexpectedToken .endOfText "" last)
      | .token t next =>
        match p.step file t with
        | some q => readItems file q t.start next
        | none => .error (.unexpectedToken t.terminal t.text t.start) := by
  rw [readItems]
  split <;> next hread =>
    rewrite [hread]
    rfl

/-- A token that is read and has a place leads on to the next one. -/
theorem readItems_token {last : Position} {cursor next : Cursor} {t : Token}
    (hread : p.state.accepted.read cursor = .token t next) (hstep : p.step file t = some q) :
    readItems file p last cursor = readItems file q t.start next := by
  rw [readItems_eq, hread]
  simp only [hstep]

theorem readItems_finished {last : Position} {cursor : Cursor} {items : List (Item Node)}
    (hread : p.state.accepted.read cursor = .finished) (hclose : p.close file = some items) :
    readItems file p last cursor = .ok items.reverse := by
  rw [readItems_eq, hread]
  simp only [hclose]

/-- The tokens that are read from a place of a text on, up to its end or to what is refused. -/
def tokensFrom (file : Option String) (p : Progress) (cursor : Cursor) : List Token :=
  match _h : p.state.accepted.read cursor with
  | .token t next =>
    match p.step file t with
    | some q => t :: tokensFrom file q next
    | none => []
  | _ => []
termination_by cursor.rest.length
decreasing_by exact Accepted.length_lt_of_read _h

/-- The tokens of a text. -/
def tokens (text : String) (file : Option String) : List Token :=
  tokensFrom file {} ⟨text.toList, {}⟩

/-- A token that is read is the first of the tokens of a text. -/
theorem tokensFrom_token {cursor next : Cursor} {t : Token}
    (hread : p.state.accepted.read cursor = .token t next) (hstep : p.step file t = some q) :
    tokensFrom file p cursor = t :: tokensFrom file q next := by
  rw [tokensFrom]
  split
  · next h =>
    cases hread.symm.trans h
    simp only [hstep]
  · next h => exact absurd hread (h _ _)

theorem tokensFrom_finished {cursor : Cursor}
    (hread : p.state.accepted.read cursor = .finished) : tokensFrom file p cursor = [] := by
  rw [tokensFrom]
  split
  · next h => cases hread.symm.trans h
  · rfl

/-- A text that is read to the end has been run through. -/
theorem reads_tokensFrom {last : Position} {cursor : Cursor} {items : List (Item Node)}
    (h : readItems file p last cursor = .ok items) :
    ∃ q before, Reads file p (tokensFrom file p cursor) q ∧ q.close file = some before ∧
      items = before.reverse := by
  fun_induction readItems file p last cursor with
  | case1 => cases h
  | case2 p last cursor hread before hclose =>
    cases h
    rw [tokensFrom_finished hread]
    exact ⟨p, before, .nil p, hclose, rfl⟩
  | case3 => cases h
  | case4 p last cursor t next hread q hstep ih =>
    obtain ⟨q', before, hreads, hclose, rfl⟩ := ih h
    rw [tokensFrom_token hread hstep]
    exact ⟨q', before, .cons (Accepted.takes_of_read hread) hstep hreads, hclose, rfl⟩
  | case5 => cases h

/-- A source text has been run through by its tokens. -/
theorem reads_tokens {s : String} {source : SourceFile} (h : parseSource s file = .ok source) :
    source.file = file ∧ ∃ q before, Reads file {} (tokens s file) q ∧
      q.close file = some before ∧ source.items = before.reverse := by
  obtain ⟨items, hitems, h⟩ := exists_of_bind_eq_ok h
  cases h
  exact ⟨rfl, reads_tokensFrom hitems⟩

/-! ## Readings of lexemes -/

/-- Some lexemes lead from a progress to one with a property, whatever tokens there are for them. -/
def LeadsTo (file : Option String) (p : Progress) (ls : List Lexeme) (P : Progress → Prop) : Prop :=
  ∀ ts : List Token, ts.map Token.lexeme = ls → ∃ q, Reads file p ts q ∧ P q

namespace LeadsTo

variable {ls ms : List Lexeme} {P Q : Progress → Prop}

theorem nil (h : P p) : LeadsTo file p [] P := by
  intro ts hts
  cases List.map_eq_nil_iff.mp hts
  exact ⟨p, .nil p, h⟩

/-- A lexeme that is taken leads on, if the others lead on from wherever the token may stand. -/
theorem cons (htakes : p.state.accepted.Takes l)
    (hstep : ∀ start stop, ∃ q, p.step file ⟨l.terminal, l.text, start, stop⟩ = some q ∧
      LeadsTo file q ls P) : LeadsTo file p (l :: ls) P := by
  intro ts hts
  obtain ⟨⟨terminal, text, start, stop⟩, rest, rfl, rfl, hrest⟩ := List.map_eq_cons_iff.mp hts
  obtain ⟨q, hq, hmore⟩ := hstep start stop
  obtain ⟨r, hreads, hr⟩ := hmore rest hrest
  exact ⟨r, .cons htakes hq hreads, hr⟩

/-- Lexemes lead on from what others have led to. -/
theorem append (h : LeadsTo file p ls Q) (hmore : ∀ q, Q q → LeadsTo file q ms P) :
    LeadsTo file p (ls ++ ms) P := by
  intro ts hts
  obtain ⟨ts₁, ts₂, rfl, hts₁, hts₂⟩ := List.map_eq_append_iff.mp hts
  obtain ⟨q, hq, hQ⟩ := h ts₁ hts₁
  obtain ⟨r, hr, hP⟩ := hmore q hQ ts₂ hts₂
  exact ⟨r, hq.append hr, hP⟩

/-- What some lexemes lead to may be told in less. -/
theorem mono (h : LeadsTo file p ls Q) (himp : ∀ q, Q q → P q) : LeadsTo file p ls P := by
  intro ts hts
  obtain ⟨q, hq, hQ⟩ := h ts hts
  exact ⟨q, hq, himp q hQ⟩

/-- Only the first lexeme sees where it is read. -/
theorem of_first (h : LeadsTo file p ls P) (hne : ls ≠ [])
    (hfirst : ∀ t q', ls.head? = some t.lexeme → p.state.accepted.Takes t.lexeme →
      p.step file t = some q' → q.state.accepted.Takes t.lexeme ∧ q.step file t = some q') :
    LeadsTo file q ls P := by
  intro ts hts
  obtain ⟨r, hreads, hr⟩ := h ts hts
  cases hreads with
  | nil => exact absurd hts.symm hne
  | @cons _ q' _ t _ htakes hstep hrest =>
    obtain ⟨htakes', hstep'⟩ := hfirst t q' (by rw [← hts]; rfl) htakes hstep
    exact ⟨r, .cons htakes' hstep' hrest, hr⟩

end LeadsTo

/-! ## Between items -/

section Items

variable {ls : List Lexeme} {P : Progress → Prop} {t : Token} {before : List (Item Node)}

/-- The item at hand is complete between items, past the name of an operator, and past an operand
outside all parentheses. -/
theorem close_eq_some (h : p.close file = some before) :
    (p.state = .ready ∧ before = p.items) ∨
    (∃ f start name stop, p.state = .operatorDeclared f start name stop ∧
      before = operatorItem file f start stop name none :: p.items) ∨
    ∃ elements, p.state = .chain [] elements ∧
      before = .node (statementNode file (chainNode file elements)) :: p.items := by
  unfold Progress.close at h
  split at h
  · next hstate => exact .inl ⟨hstate, (Option.some.inj h).symm⟩
  · next f start name stop hstate =>
    exact .inr (.inl ⟨f, start, name, stop, hstate, (Option.some.inj h).symm⟩)
  · next elements hstate => exact .inr (.inr ⟨elements, hstate, (Option.some.inj h).symm⟩)
  · cases h

/-- Past a complete item everything with which an item begins has a place. -/
theorem takes_of_close (hclose : p.close file = some before) (h : Accepted.itemStart.Takes l) :
    p.state.accepted.Takes l := by
  rcases close_eq_some hclose with ⟨hstate, -⟩ | ⟨f, start, name, stop, hstate, -⟩ |
    ⟨elements, hstate, -⟩ <;> rw [hstate]
  · exact h
  · exact h.mono id id id rfl (List.subset_cons_self _ _)
  · exact h.mono id id nofun rfl (List.cons_subset_cons _ (List.nil_subset _))

/-- To start an item is to close the last one and begin the next. -/
theorem of_startItem (h : p.startItem file t = some q) :
    ∃ before state, p.close file = some before ∧ beginItem file t = some state ∧
      q = ⟨before, state⟩ := by
  rw [Progress.startItem, Option.bind_eq_bind, Option.bind_eq_some_iff] at h
  obtain ⟨before, hclose, h⟩ := h
  rw [Option.bind_eq_bind, Option.bind_eq_some_iff] at h
  obtain ⟨state, hbegin, h⟩ := h
  exact ⟨before, state, hclose, hbegin, (Option.some.inj h).symm⟩

/-- The first token of an item ends a complete item in front of it. -/
theorem step_of_close (hclose : p.close file = some before)
    (h : Progress.step file ⟨before, .ready⟩ t = some q) : p.step file t = some q := by
  obtain ⟨_, state, hbefore, hbegin, rfl⟩ := of_startItem h
  cases hbefore
  have hstart : p.startItem file t = some ⟨before, state⟩ := by
    rw [Progress.startItem, hclose, hbegin]
    rfl
  -- what goes on with the item at hand, a colon or an operator, begins no item
  rcases close_eq_some hclose with ⟨hstate, -⟩ | ⟨f, start, name, stop, hstate, -⟩ |
    ⟨elements, hstate, -⟩ <;> simp only [Progress.step, hstate]
  · exact hstart
  · split
    · next ht =>
      simp only [beginItem, beginOperand, ht] at hbegin
      cases hbegin
    · exact hstart
  · split
    · next ht =>
      simp only [beginItem, beginOperand, ht] at hbegin
      cases hbegin
    · next hframes => cases hframes
    · exact hstart

/-- What is read between items is read behind a complete item as well. -/
theorem LeadsTo.of_ready (h : LeadsTo file ⟨before, .ready⟩ ls P) (hne : ls ≠ [])
    (hclose : p.close file = some before) : LeadsTo file p ls P :=
  h.of_first hne fun _ _ _ htakes hstep =>
    ⟨takes_of_close hclose htakes, step_of_close hclose hstep⟩

end Items

/-! ## Texts of lexemes -/

/-- A text spells some lexemes in front of a rest: they stand in it in their order, each behind some
layout and each where the text does not go on with it. -/
inductive Written : List Lexeme → List Char → List Char → Prop
  | nil (rest : List Char) : Written [] rest rest
  | cons {l : Lexeme} {ls : List Lexeme} {layout text rest : List Char} (hlayout : IsLayout layout)
      (hend : l.EndsAt text) (hrest : Written ls text rest) :
      Written (l :: ls) (layout ++ (l.text.toList ++ text)) rest

variable {ls ms : List Lexeme} {text middle : List Char}

/-- A text spells lexemes and then others, if it does so in two parts. -/
theorem Written.append (h : Written ls text middle) (hmore : Written ms middle rest) :
    Written (ls ++ ms) text rest := by
  induction h with
  | nil => exact hmore
  | cons hlayout hend _ ih => exact .cons hlayout hend (ih hmore)

/-- More layout may stand in front of the first lexeme. -/
theorem Written.prepend (h : Written ls text rest) (hne : ls ≠ []) (hlayout : IsLayout layout) :
    Written ls (layout ++ text) rest := by
  cases h with
  | nil => exact absurd rfl hne
  | cons hold hend hrest =>
    rw [← List.append_assoc]
    exact .cons (hlayout.append hold) hend hrest

/-- A text spells one lexeme by the text of the lexeme, if this ends there. -/
theorem Written.singleton (hend : l.EndsAt rest) : Written [l] (l.text.toList ++ rest) rest :=
  .cons .nil hend (.nil rest)

/-- A text that spells some lexemes has tokens for them, and it is read as they are run through. -/
theorem Written.exists_tokens (h : Written ls text rest) (position : Position) :
    ∃ (ts : List Token) (after : Position), ts.map Token.lexeme = ls ∧
      ∀ file p q last, Reads file p ts q → ∃ last',
        readItems file p last ⟨text, position⟩ = readItems file q last' ⟨rest, after⟩ := by
  induction h generalizing position with
  | nil rest =>
    refine ⟨[], position, rfl, fun file p q last hreads => ?_⟩
    cases hreads
    exact ⟨last, rfl⟩
  | cons hlayout hend _ ih =>
    -- which token is read does not depend on the state, as long as the state takes it
    obtain ⟨t, ⟨rest', position'⟩, hlexeme, rfl, hread⟩ := exists_token hend hlayout position
    obtain ⟨ts, after, hlexemes, hrun⟩ := ih position'
    refine ⟨t :: ts, after, by rw [List.map_cons, hlexeme, hlexemes], ?_⟩
    intro file p q last hreads
    cases hreads with
    | cons htakes hstep hrest =>
      obtain ⟨last', hlast⟩ := hrun file _ q t.start hrest
      exact ⟨last', (readItems_token (hread _ (hlexeme ▸ htakes)) hstep).trans hlast⟩

/-- A text is read if it spells lexemes that lead to the end of an item. -/
theorem parseSource_of_leadsTo {s : String} {P : List (Item Node) → Prop}
    (hwritten : Written ls s.toList rest) (hlayout : IsLayout rest)
    (hleads : LeadsTo file {} ls fun q =>
      ∃ before, q.close file = some before ∧ P before.reverse) :
    ∃ source, parseSource s file = .ok source ∧ source.file = file ∧ P source.items := by
  obtain ⟨ts, after, hlexemes, hrun⟩ := hwritten.exists_tokens {}
  obtain ⟨q, hq, before, hclose, hitems⟩ := hleads ts hlexemes
  obtain ⟨last, hread⟩ := hrun file {} q {} hq
  have hfinished := q.state.accepted.read_layout hlayout after
  refine ⟨⟨before.reverse, file⟩, ?_, rfl, hitems⟩
  rw [parseSource, hread, readItems_finished hfinished hclose]
  rfl

end OperatorFold.Source
