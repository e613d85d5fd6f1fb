import OperatorFold.CommandLine.Run
import OperatorFold.Proofs.Source.Reading

/-! # The line ends of a file

The lines of a text may end in a newline or in a carriage return with a newline. Reading a file
makes one of the other (`unifyNewlines`), while a text that is given as it is keeps its carriage
returns. The reader makes no difference between the two (`parseFile_agrees`): it comes to the same
items with the same spans, or refuses both in the same way at the same place.

The carriage return is a blank in one place and a part of a comment in another. Both ways it stands
on a line that the newline behind it ends, so it moves no position that is looked at, and a lexeme
ends in front of either. Hence two texts with the same lines (`SameLines`) stay so while they are
read token by token (`Accepted.read_alike`).
-/

namespace OperatorFold.Source

/-! ## Texts with the same lines -/

/-- Two texts have the same lines; those of the first end in newlines, and those of the second in
newlines that may stand behind a carriage return. There are no other carriage returns. -/
inductive SameLines : List Char → List Char → Prop
  | nil : SameLines [] []
  | cons {c : Char} {text other : List Char} (hc : c ≠ '\r') (h : SameLines text other) :
      SameLines (c :: text) (c :: other)
  | lineEnd {text other : List Char} (h : SameLines text other) :
      SameLines ('\n' :: text) ('\r' :: '\n' :: other)

/-- Every carriage return of a text belongs to a newline right behind it. -/
def ReturnsPaired (text : List Char) : Prop :=
  ∀ before after, text = before ++ '\r' :: after → after.head? = some '\n'

theorem returnsPaired_nil : ReturnsPaired [] := by
  intro before after h
  exact absurd h (List.append_ne_nil_of_right_ne_nil _ (List.cons_ne_nil _ _)).symm

/-- The carriage returns of a text are paired if its first character is none without a newline
behind it, and those of the others are. -/
theorem returnsPaired_cons {c : Char} {text : List Char} :
    ReturnsPaired (c :: text) ↔ (c = '\r' → text.head? = some '\n') ∧ ReturnsPaired text := by
  constructor
  · intro h
    refine ⟨fun hc => h [] text (by rw [hc]; rfl), ?_⟩
    rintro before after rfl
    exact h (c :: before) after rfl
  · rintro ⟨hfirst, hmore⟩ before after h
    rcases List.append_eq_cons_iff.mp h.symm with ⟨rfl, hafter⟩ | ⟨before, rfl, htext⟩
    · injection hafter with hc htext
      exact htext ▸ hfirst hc.symm
    · exact hmore before after htext

instance decidableReturnsPaired : DecidablePred ReturnsPaired
  | [] => isTrue returnsPaired_nil
  | _ :: text =>
    have : Decidable (ReturnsPaired text) := decidableReturnsPaired text
    decidable_of_iff _ returnsPaired_cons.symm

/-- Unifying the newlines of a text keeps its lines. -/
theorem sameLines_unifyNewlines {text : List Char} (h : ReturnsPaired text) :
    SameLines (Text.unifyNewlines text) text := by
  fun_induction Text.unifyNewlines text with
  | case1 => exact .nil
  | case2 rest ih =>
    exact .lineEnd (ih (returnsPaired_cons.mp (returnsPaired_cons.mp h).2).2)
  | case3 c rest hpair ih =>
    obtain ⟨hfirst, hrest⟩ := returnsPaired_cons.mp h
    -- a carriage return here would stand in front of something else than a newline
    have hc : c ≠ '\r' := by
      intro hc
      obtain ⟨more, hmore⟩ := List.head?_eq_some_iff.mp (hfirst hc)
      exact hpair more hc hmore
    rw [if_neg hc]
    exact .cons hc (ih hrest)

namespace SameLines

variable {text other front : List Char}

/-- The same characters in front, without a carriage return, leave the lines the same. -/
theorem append_left (hfront : ∀ c ∈ front, c ≠ '\r') (h : SameLines text other) :
    SameLines (front ++ text) (front ++ other) := by
  induction front with
  | nil => exact h
  | cons c front ih =>
    rw [List.forall_mem_cons] at hfront
    exact .cons hfront.1 (ih hfront.2)

/-- Up to the first blank, texts with the same lines are the same. -/
theorem exists_front (h : SameLines text other) :
    ∃ front rest rest', text = front ++ rest ∧ other = front ++ rest' ∧ SameLines rest rest' ∧
      (∀ c ∈ front, c ≠ '\r') ∧ (∀ c ∈ rest.head?, isBlank c = true) ∧
      ∀ c ∈ rest'.head?, isBlank c = true := by
  induction h with
  | nil => exact ⟨[], [], [], rfl, rfl, .nil, List.forall_mem_nil _, nofun, nofun⟩
  | @cons c text other hc h ih =>
    -- the front ends at the first blank, and up to there the two texts are equal
    cases hblank : isBlank c with
    | true =>
      have hhead (tail : List Char) : ∀ d ∈ (c :: tail).head?, isBlank d = true := by
        rintro d ⟨⟩
        exact hblank
      exact ⟨[], c :: text, c :: other, rfl, rfl, .cons hc h, List.forall_mem_nil _, hhead _,
        hhead _⟩
    | false =>
      obtain ⟨front, rest, rest', rfl, rfl, hrest, hfront, hends⟩ := ih
      exact ⟨c :: front, rest, rest', rfl, rfl, hrest, List.forall_mem_cons.mpr ⟨hc, hfront⟩,
        hends⟩
  | @lineEnd text other h _ =>
    exact ⟨[], '\n' :: text, '\r' :: '\n' :: other, rfl, rfl, .lineEnd h, List.forall_mem_nil _,
      by rintro c ⟨⟩; rfl, by rintro c ⟨⟩; rfl⟩

end SameLines

/-! ## Lexemes in front of a blank

No lexeme has a blank in it. So what is read at the front of a text is found before the first
blank, whatever follows. -/

section Front

variable {front rest : List Char}

/-- What is taken from the front ends there if the text behind it stops it. -/
theorem takeWhile_append_of_stop {p : Char → Bool} (hrest : ∀ c ∈ rest.head?, p c = false) :
    (front ++ rest).takeWhile p = front.takeWhile p := by
  induction front with
  | nil => exact takeWhile_append_of_endsAt (List.forall_mem_nil _) hrest
  | cons c front ih => rw [List.cons_append, List.takeWhile_cons, List.takeWhile_cons, ih]

/-- A word without blanks ends in front of a blank. -/
theorem prefix_append_iff_of_blank {word : List Char} (hword : ∀ c ∈ word, isBlank c = false)
    (hrest : ∀ c ∈ rest.head?, isBlank c = true) : word <+: front ++ rest ↔ word <+: front := by
  induction word generalizing front with
  | nil => exact iff_of_true List.nil_prefix List.nil_prefix
  | cons d word ih =>
    rw [List.forall_mem_cons] at hword
    cases front with
    | nil =>
      rw [List.nil_append]
      refine iff_of_false (fun hprefix => ?_) (fun hprefix => nomatch List.prefix_nil.mp hprefix)
      obtain ⟨more, hmore⟩ := hprefix
      have hblank := hrest d (by rw [← hmore]; rfl)
      rw [hword.1] at hblank
      cases hblank
    | cons c front =>
      rw [List.cons_append, List.cons_prefix_cons, List.cons_prefix_cons, ih hword.2]

/-- A hexadecimal literal has at least one digit, or else its zero is all of it. -/
theorem integerLength_hex (text : List Char) :
    integerLength ('0' :: 'x' :: text) =
      match (text.takeWhile isHexDigitOrGap).length with
      | 0 => 1
      | n + 1 => n + 3 :=
  rfl

/-- A decimal literal goes on with digits, and none begins with another character. -/
theorem integerLength_decimal {c : Char} {text : List Char}
    (h : ¬(c = '0' ∧ text.head? = some 'x')) :
    integerLength (c :: text) =
      if c.isDigit then (text.takeWhile isDigitOrGap).length + 1 else 0 := by
  unfold integerLength
  split
  · next heq =>
    cases heq
    exact absurd ⟨rfl, rfl⟩ h
  · next heq =>
    cases heq
    rfl
  · next heq => cases heq

variable (hrest : ∀ c ∈ rest.head?, isBlank c = true)

include hrest

/-- No blank is among characters of names. -/
theorem not_of_blank {p : Char → Bool} (hp : ∀ c, p c = true → isNameChar c = true) :
    ∀ c ∈ rest.head?, p c = false := by
  intro c hc
  rw [Bool.eq_false_iff]
  intro hpc
  exact Bool.eq_false_iff.mp (of_isBlank (hrest c hc)).1 (hp c hpc)

/-- A literal ends in front of a blank. -/
theorem integerLength_append : integerLength (front ++ rest) = integerLength front := by
  have hhex := not_of_blank hrest fun _ => isNameChar_of_isHexDigitOrGap
  have hdecimal := not_of_blank hrest fun _ => isNameChar_of_isDigitOrGap
  cases front with
  | nil =>
    cases rest with
    | nil => rfl
    | cons c rest =>
      have hdigit : c.isDigit = false := by
        rw [Bool.eq_false_iff]
        intro hdigit
        have hname := (of_isBlank (hrest c rfl)).1
        rw [isNameChar_iff.mpr (.inr hdigit)] at hname
        cases hname
      rw [List.nil_append, integerLength_decimal, hdigit]
      · rfl
      · rintro ⟨rfl, -⟩
        cases hdigit
  | cons c front =>
    -- only `0x` at the front changes which digits are taken, and a blank is no `x`
    by_cases h : c = '0' ∧ front.head? = some 'x'
    · obtain ⟨rfl, hx⟩ := h
      obtain ⟨more, rfl⟩ := List.head?_eq_some_iff.mp hx
      rw [List.cons_append, List.cons_append, integerLength_hex, integerLength_hex,
        takeWhile_append_of_stop hhex]
    · rw [List.cons_append, integerLength_decimal h, integerLength_decimal,
        takeWhile_append_of_stop hdecimal]
      rintro ⟨hc, hx⟩
      cases front with
      | nil =>
        have hblank := hrest 'x' hx
        cases hblank
      | cons d front => exact h ⟨hc, hx⟩

namespace Accepted

variable {a : Accepted}

/-- A blank behind the text changes nothing in the word that is taken. -/
theorem word?_append_of_blank : a.word? (front ++ rest) = a.word? front := by
  have hstart := not_of_blank hrest fun _ h => isNameChar_iff.mpr (.inl h)
  cases front with
  | nil =>
    cases rest with
    | nil => rfl
    | cons c rest => exact word?_eq_none (hstart c rfl)
  | cons c front =>
    have hword : (c :: front ++ rest).takeWhile isNameChar = (c :: front).takeWhile isNameChar :=
      takeWhile_append_of_stop (not_of_blank hrest fun _ h => h)
    rw [List.cons_append] at hword ⊢
    simp only [word?, hword]

theorem keyword?_append_of_blank : a.keyword? (front ++ rest) = a.keyword? front := by
  have hprefix (k : Keyword) :
      k.text.toList.isPrefixOf (front ++ rest) = k.text.toList.isPrefixOf front := by
    obtain ⟨c, more, htext, hc, hmore⟩ := exists_of_isName k.isName_text
    rw [Bool.eq_iff_iff, List.isPrefixOf_iff_prefix, List.isPrefixOf_iff_prefix]
    refine prefix_append_iff_of_blank ?_ hrest
    rw [htext, List.forall_mem_cons]
    exact ⟨(of_isNameChar (isNameChar_iff.mpr (.inl hc))).2,
      fun d hd => (of_isNameChar (hmore d hd)).2⟩
  simp only [keyword?, hprefix]

theorem integer?_append_of_blank : integer? (front ++ rest) = integer? front := by
  rw [integer?, integer?, integerLength_append hrest]

theorem operator?_append_of_blank : operator? (front ++ rest) = operator? front := by
  rw [operator?, operator?,
    takeWhile_append_of_stop fun c hc => (of_isBlank (hrest c hc)).2]

theorem mark?_append_of_blank : a.mark? (front ++ rest) = a.mark? front := by
  cases front with
  | nil =>
    cases rest with
    | nil => rfl
    | cons c rest =>
      rw [List.nil_append, mark?, mark?, Option.map_eq_none_iff, List.find?_eq_none]
      intro m _ hm
      have hblank := hrest c rfl
      rw [← of_decide_eq_true hm, m.char_class.2.2] at hblank
      cases hblank
  | cons c front => rfl

/-- The lexeme at the front of a text is found before the first blank. -/
theorem lexeme?_append_of_blank : a.lexeme? (front ++ rest) = a.lexeme? front := by
  rw [lexeme?, lexeme?, word?_append_of_blank hrest, keyword?_append_of_blank hrest,
    integer?_append_of_blank hrest, operator?_append_of_blank hrest, mark?_append_of_blank hrest]

end Accepted

end Front

/-! ## Reading -/

/-- Two cursors stand at the same place of texts with the same lines. -/
structure Cursor.Alike (here there : Cursor) : Prop where
  position : here.position = there.position
  lines : SameLines here.rest there.rest

/-- The same stands next in two texts. -/
inductive Reading.Alike : Reading → Reading → Prop
  | finished : Alike .finished .finished
  | token (t : Token) {next next' : Cursor} (h : next.Alike next') :
      Alike (.token t next) (.token t next')
  | refused (e : ParseError) : Alike (.refused e) (.refused e)

/-- Skipping blanks and comments ends at the same place. A carriage return is skipped with the
newline behind it, as a blank or at the end of a comment. -/
theorem SameLines.alike_skipLayout {text other : List Char} (h : SameLines text other)
    (inComment : Bool) (p : Position) :
    (skipLayout inComment text p).Alike (skipLayout inComment other p) := by
  fun_induction skipLayout inComment text p generalizing other with
  | case1 inComment p =>
    cases h
    exact ⟨by rw [skipLayout], by rw [skipLayout]; exact .nil⟩
  | case2 c rest p ih =>
    cases h with
    | cons hc h => exact ih h
    | lineEnd h =>
      -- behind a newline the place is the same with a carriage return in front of it or without
      exact ih h
  | case3 rest p ih =>
    cases h with
    | cons _ h =>
      cases h with
      | cons _ h => exact ih h
  | case4 c rest p hcomment hblank ih =>
    cases h with
    | cons hc h =>
      rw [skipLayout_blank hblank]
      exact ih h
    | lineEnd h => exact ih h
  | case5 c rest p hcomment hblank =>
    cases h with
    | cons hc h =>
      rw [skipLayout_stop (Bool.eq_false_iff.mpr hblank)]
      · exact ⟨rfl, .cons hc h⟩
      · intro hslashes
        obtain ⟨rfl, more, hmore⟩ := List.cons_prefix_cons.mp hslashes
        cases hmore
        cases h with
        | cons _ h => exact hcomment _ rfl rfl
    | lineEnd => exact absurd rfl hblank

/-- In texts with the same lines the same is read at the same place. -/
theorem Accepted.read_alike {here there : Cursor} (h : here.Alike there) (a : Accepted) :
    (a.read here).Alike (a.read there) := by
  have hskip : here.skip.Alike there.skip := by
    rw [Cursor.skip, Cursor.skip, ← h.position]
    exact h.lines.alike_skipLayout false here.position
  have hstop (c : Char) (more : List Char) (hrest : here.skip.rest = c :: more) :
      isBlank c = false :=
    (of_skipLayout hrest).1
  simp only [Accepted.read]
  generalize here.skip = here at hskip hstop
  generalize there.skip = there at hskip
  obtain ⟨text, p⟩ := here
  obtain ⟨other, _⟩ := there
  obtain ⟨rfl, hlines⟩ := hskip
  obtain ⟨front, rest, rest', rfl, rfl, hrest, hreturn, hblank, hblank'⟩ := hlines.exists_front
  cases front with
  | nil =>
    -- what is left does not begin with a blank, so nothing is left
    cases hrest with
    | nil => exact .finished
    | @cons c _ _ _ _ =>
      have hc : isBlank c = false := hstop c _ rfl
      rw [hblank c rfl] at hc
      cases hc
    | lineEnd => cases hstop '\n' _ rfl
  | cons c front =>
    have htoken (terminal : Terminal) {n : Nat} (hn : n ≤ (c :: front).length) :
        Cursor.token ⟨c :: front ++ rest', p⟩ terminal n =
          Cursor.token ⟨c :: front ++ rest, p⟩ terminal n := by
      rw [Cursor.token, Cursor.token, List.take_append_of_le_length hn,
        List.take_append_of_le_length hn]
    have hadvance {n : Nat} (hn : n ≤ (c :: front).length) :
        (Cursor.advance ⟨c :: front ++ rest, p⟩ n).Alike
          (Cursor.advance ⟨c :: front ++ rest', p⟩ n) := by
      refine ⟨?_, ?_⟩
      · rw [Cursor.advance, Cursor.advance, List.take_append_of_le_length hn,
          List.take_append_of_le_length hn]
      · rw [Cursor.advance, Cursor.advance, List.drop_append_of_le_length hn,
          List.drop_append_of_le_length hn]
        exact hrest.append_left fun d hd => hreturn d (List.mem_of_mem_drop hd)
    simp only [lexeme?_append_of_blank hblank, lexeme?_append_of_blank hblank']
    rcases hlexeme : a.lexeme? (c :: front) with _ | ⟨terminal, _ | n⟩
    rotate_left 2
    · have hn := length_le_of_lexeme? hlexeme
      simp only [htoken terminal hn]
      exact .token _ (hadvance hn)
    -- nothing is read here, and the reason is looked for among all terminals
    all_goals
      cases hother : everything.lexeme? (c :: front) with
      | none => exact .refused _
      | some other =>
        simp only [htoken other.1 (length_le_of_lexeme? hother)]
        exact .refused _

/-- Texts with the same lines are read in the same way to the end, or refused in the same way at the
same place. -/
theorem readItems_alike {file : Option String} {p : Progress} {last : Position}
    {here there : Cursor} (h : here.Alike there) :
    readItems file p last here = readItems file p last there := by
  induction hlength : here.rest.length using Nat.strong_induction_on
    generalizing p last here there with
  | _ length ih =>
    rw [readItems_eq, readItems_eq]
    have hread := p.state.accepted.read_alike h
    generalize hhere : p.state.accepted.read here = reading at hread
    generalize p.state.accepted.read there = reading' at hread
    -- the token is the same, and so is the step; the cursors behind it are alike again
    cases hread with
    | finished => rfl
    | refused e => rfl
    | token t hnext =>
      cases hstep : p.step file t with
      | none => simp only [hstep]
      | some q =>
        simp only [hstep]
        exact ih _ (hlength ▸ Accepted.length_lt_of_read hhere) hnext rfl

/-- A text is read as it is, or refused, just as with its newlines unified. -/
theorem parseSource_unifyNewlines {s : String} (h : ReturnsPaired s.toList)
    (file : Option String) :
    parseSource (String.ofList (Text.unifyNewlines s.toList)) file = parseSource s file := by
  have halike : Cursor.Alike ⟨Text.unifyNewlines s.toList, {}⟩ ⟨s.toList, {}⟩ :=
    ⟨rfl, sameLines_unifyNewlines h⟩
  rw [parseSource, parseSource, String.toList_ofList, readItems_alike halike]

end OperatorFold.Source

namespace OperatorFold.CommandLine

open Source

/-- A file that holds a text is read with its newlines unified. -/
theorem FileContent.ofBytes_toUTF8 (s : String) :
    FileContent.ofBytes s.toUTF8 = .text (String.ofList (Text.unifyNewlines s.toList)) := by
  have hread : String.fromUTF8? s.toUTF8 = some s := by
    rw [String.toUTF8_eq_toByteArray, String.fromUTF8?, dif_pos s.isValidUTF8]
    rfl
  rw [ofBytes, hread]

/-- **Files and texts agree on line ends.** A text whose carriage returns all belong to newlines is
read from a file as it is read without one, under the written form of the file's name: either both
come to the same items with the same spans, or both refuse the text in the same way at the same
place. -/
theorem parseFile_agrees {files : Files} {name s : String}
    (hname : '\x00' ∉ (normalizePath name).toList)
    (hfile : files (normalizePath name) = .ofBytes s.toUTF8) (hreturns : ReturnsPaired s.toList) :
    (∃ source, parseFile files name = .ok source ∧
      parseSource s (some (normalizePath name)) = .ok source) ∨
    ∃ e, parseFile files name = .error (.refused e) ∧
      parseSource s (some (normalizePath name)) = .error e := by
  have hread : readText files (normalizePath name) =
      .ok (String.ofList (Text.unifyNewlines s.toList)) := by
    have hcontains : (normalizePath name).toList.contains '\x00' = false := by
      rw [Bool.eq_false_iff, ne_eq, List.contains_iff_mem]
      exact hname
    rw [readText, hcontains, hfile, FileContent.ofBytes_toUTF8]
    rfl
  have hparse : parseFile files name =
      (parseSource s (some (normalizePath name))).mapError .refused := by
    rw [← parseSource_unifyNewlines hreturns, parseFile, hread]
    rfl
  rw [hparse]
  cases parseSource s (some (normalizePath name)) with
  | ok source => exact .inl ⟨source, rfl, rfl⟩
  | error e => exact .inr ⟨e, rfl, rfl⟩

/-- Carriage returns stand behind a comment, among blanks and behind a name, and the parenthesis at
the end is refused. -/
def strayParenthesis : String := "a + // b\r\n \t\r\nc\r\n )"

/-- The parenthesis is refused in the fourth line of the file, as it is in that of its text. -/
theorem parseFile_agrees_strayParenthesis :
    parseFile (fun _ => .ofBytes strayParenthesis.toUTF8) "m" =
        .error (.refused (.unexpectedToken (.mark .closeParen) ")" ⟨4, 2⟩)) ∧
      ReturnsPaired strayParenthesis.toList := by
  have hname : normalizePath "m" = "m" := by decide +kernel
  have hreturns : ReturnsPaired strayParenthesis.toList := by decide
  have hrefused : (parseSource strayParenthesis (some "m")).map (fun _ => ()) =
      .error (.unexpectedToken (.mark .closeParen) ")" ⟨4, 2⟩) := by
    decide +kernel
  refine ⟨?_, hreturns⟩
  have hagrees := @parseFile_agrees (fun _ => .ofBytes strayParenthesis.toUTF8) "m"
    strayParenthesis (by rw [hname]; decide) rfl hreturns
  rw [hname] at hagrees
  rcases hagrees with ⟨source, hfile, htext⟩ | ⟨e, hfile, htext⟩
  · rw [htext] at hrefused
    cases hrefused
  · rw [htext] at hrefused
    cases hrefused
    exact hfile

end OperatorFold.CommandLine
