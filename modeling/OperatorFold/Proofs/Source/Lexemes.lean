import OperatorFold.Source.Lexer
import Mathlib.Data.List.TakeWhile

/-! # Lexemes

What the words of a source text look like, apart from the reader, and where one has a place
(`Accepted.Takes`). The two agree: whatever is found at the front of a text is a lexeme with a place
(`Accepted.takes_of_lexeme?`), and a lexeme with a place is found there if what follows cannot go on
with it (`Accepted.lexeme?_of_takes`).

A lexeme ends where the text has a character that does not go on with it (`Lexeme.EndsAt`). So the
question is always put with the rest of the text at hand, and lexemes can stand side by side without
anything between them where they cannot be mistaken for a longer one.
-/

namespace OperatorFold.Source

/-- A word of a text: its terminal and its characters. -/
structure Lexeme where
  terminal : Terminal
  text : String
deriving DecidableEq

/-- The word of a token. -/
def Token.lexeme (t : Token) : Lexeme := ⟨t.terminal, t.text⟩

namespace Lexeme

/-- A name, be it spelled like a keyword or not. -/
def name (s : String) : Lexeme := ⟨.name, s⟩

/-- An integer literal. -/
def integer (s : String) : Lexeme := ⟨.integer, s⟩

/-- An operator. -/
def operator (s : String) : Lexeme := ⟨.operator, s⟩

/-- A keyword. -/
def keyword (k : Keyword) : Lexeme := ⟨.keyword k, k.text⟩

/-- A mark. -/
def mark (m : Mark) : Lexeme := ⟨.mark m, String.singleton m.char⟩

end Lexeme

/-! ## Spellings -/

/-- A name: a letter or an underscore, and then letters, digits and underscores. -/
def isName (s : String) : Bool :=
  match s.toList with
  | c :: rest => isNameStart c && rest.all isNameChar
  | [] => false

/-- An integer literal: `0x` with hexadecimal digits and gaps, or a digit with digits and gaps. -/
def isInteger (s : String) : Bool :=
  match s.toList with
  | '0' :: 'x' :: c :: rest => (c :: rest).all isHexDigitOrGap
  | c :: rest => c.isDigit && rest.all isDigitOrGap
  | [] => false

/-- Two slashes, with which a comment begins. -/
def slashes : List Char := ['/', '/']

/-- An operator: some of the characters of operators, not beginning like a comment. -/
def isOperatorName (s : String) : Bool :=
  !s.toList.isEmpty && s.toList.all isOperatorChar && !slashes.isPrefixOf s.toList

/-- A lexeme has a place: the grammar takes its terminal, and its text is spelled so. A name must
not be spelled like a keyword that has a place as well. -/
def Accepted.Takes (a : Accepted) (l : Lexeme) : Prop :=
  match l.terminal with
  | .name => a.name = true ∧ isName l.text = true ∧ ∀ k ∈ a.keywords, k.text ≠ l.text
  | .integer => a.integer = true ∧ isInteger l.text = true
  | .operator => a.operator = true ∧ isOperatorName l.text = true
  | .keyword k => k ∈ a.keywords ∧ l.text = k.text
  | .mark m => m ∈ a.marks ∧ l.text = String.singleton m.char
  | .endOfText => False

/-- The characters that go on with a lexeme. -/
def Terminal.goesOn : Terminal → Char → Bool
  | .operator => isOperatorChar
  | .mark _ | .endOfText => fun _ => false
  | .name | .integer | .keyword _ => isNameChar

/-- A lexeme ends in front of the rest of a text. -/
def Lexeme.EndsAt (l : Lexeme) (rest : List Char) : Prop :=
  ∀ c ∈ rest.head?, l.terminal.goesOn c = false

/-! ## Characters -/

section Characters

variable {c : Char}

theorem isDigit_iff : c.isDigit = true ↔ 48 ≤ c.toNat ∧ c.toNat ≤ 57 := by
  simp only [Char.isDigit, Bool.and_eq_true, decide_eq_true_eq, ge_iff_le]
  exact Iff.rfl

/-- A name starts with a letter or an underscore. -/
theorem isNameStart_iff :
    isNameStart c = true ↔ 65 ≤ c.toNat ∧ c.toNat ≤ 90 ∨ 97 ≤ c.toNat ∧ c.toNat ≤ 122 ∨
      c.toNat = 95 := by
  have hranges : isNameStart c =
      ((decide ('A' ≤ c ∧ c ≤ 'Z') || decide ('a' ≤ c) && decide (c ≤ 'z')) ||
        decide (c = '_')) := rfl
  simp only [hranges, Bool.or_eq_true, Bool.and_eq_true, decide_eq_true_eq, or_assoc]
  rw [← Char.toNat_inj]
  exact Iff.rfl

/-- No name starts with a digit. -/
theorem isNameStart_of_isDigit (h : c.isDigit = true) : isNameStart c = false := by
  rw [isDigit_iff] at h
  rw [Bool.eq_false_iff, ne_eq, isNameStart_iff]
  omega

theorem isNameChar_iff : isNameChar c = true ↔ isNameStart c = true ∨ c.isDigit = true := by
  simp only [isNameChar, isNameStart, Char.isAlphanum, Bool.or_eq_true, or_assoc, or_comm,
    or_left_comm]

/-- What a decimal literal may go on with, a name may, too. -/
theorem isNameChar_of_isDigitOrGap (h : isDigitOrGap c = true) : isNameChar c = true := by
  rw [isDigitOrGap, Bool.or_eq_true] at h
  rcases h with h | h
  · exact isNameChar_iff.mpr (.inr h)
  · rw [of_decide_eq_true h]
    decide

theorem isNameChar_of_isHexDigitOrGap (h : isHexDigitOrGap c = true) : isNameChar c = true := by
  rw [isNameChar_iff, isNameStart_iff, isDigit_iff]
  simp only [isHexDigitOrGap, Bool.or_eq_true, Bool.and_eq_true, decide_eq_true_eq,
    isDigit_iff] at h
  rw [← Char.toNat_inj] at h
  have hlower : ('a' ≤ c ∧ c ≤ 'f') ↔ 97 ≤ c.toNat ∧ c.toNat ≤ 102 := Iff.rfl
  have hupper : ('A' ≤ c ∧ c ≤ 'F') ↔ 65 ≤ c.toNat ∧ c.toNat ≤ 70 := Iff.rfl
  have hgap : '_'.toNat = 95 := rfl
  rw [hlower, hupper, hgap] at h
  omega

/-- A character of operators is none of names and no blank. -/
theorem of_isOperatorChar (h : isOperatorChar c = true) :
    isNameChar c = false ∧ isBlank c = false := by
  have hall : operatorChars.all (fun c => !isNameChar c && !isBlank c) = true := by decide
  have hc := List.all_eq_true.mp hall c (List.contains_iff_mem.mp h)
  rwa [Bool.and_eq_true, Bool.not_eq_true', Bool.not_eq_true'] at hc

/-- A character of names is none of operators and no blank. -/
theorem of_isNameChar (h : isNameChar c = true) :
    isOperatorChar c = false ∧ isBlank c = false := by
  constructor
  · by_contra hop
    rw [(of_isOperatorChar (Bool.not_eq_false _ ▸ hop)).1] at h
    cases h
  · by_contra hblank
    simp only [isBlank, Bool.or_eq_true, decide_eq_true_eq, Bool.not_eq_false] at hblank
    rcases hblank with (((rfl | rfl) | rfl) | rfl) | rfl <;> revert h <;> decide

/-- A blank is no character of names or operators. -/
theorem of_isBlank (h : isBlank c = true) : isNameChar c = false ∧ isOperatorChar c = false := by
  constructor
  · by_contra hname
    rw [(of_isNameChar (Bool.not_eq_false _ ▸ hname)).2] at h
    cases h
  · by_contra hop
    rw [(of_isOperatorChar (Bool.not_eq_false _ ▸ hop)).2] at h
    cases h

/-- A mark is no character of names or operators and no blank. -/
theorem Mark.char_class (m : Mark) :
    isNameChar m.char = false ∧ isOperatorChar m.char = false ∧ isBlank m.char = false := by
  cases m <;> decide

end Characters

/-! ## Texts of lexemes -/

section Texts

variable {s : String}

/-- A name has a first character, and others behind it. -/
theorem exists_of_isName (h : isName s = true) :
    ∃ c rest, s.toList = c :: rest ∧ isNameStart c = true ∧ ∀ d ∈ rest, isNameChar d = true := by
  rw [isName] at h
  split at h
  · next c rest hs =>
    rw [Bool.and_eq_true, List.all_eq_true] at h
    exact ⟨c, rest, hs, h.1, h.2⟩
  · cases h

/-- An integer is hexadecimal, with the two characters that say so in front of at least one digit,
or it is decimal and begins with a digit. -/
theorem exists_of_isInteger (h : isInteger s = true) :
    (∃ c rest, s.toList = '0' :: 'x' :: c :: rest ∧
      ∀ d ∈ c :: rest, isHexDigitOrGap d = true) ∨
    ∃ c rest, s.toList = c :: rest ∧ c.isDigit = true ∧ ∀ d ∈ rest, isDigitOrGap d = true := by
  rw [isInteger] at h
  split at h
  · next c rest hs => exact .inl ⟨c, rest, hs, List.all_eq_true.mp h⟩
  · next c rest _ hs =>
    rw [Bool.and_eq_true, List.all_eq_true] at h
    exact .inr ⟨c, rest, hs, h.1, h.2⟩
  · cases h

/-- An operator is spelled with its characters alone, and does not begin a comment. -/
theorem isOperatorName_iff :
    isOperatorName s = true ↔
      s.toList ≠ [] ∧ (∀ c ∈ s.toList, isOperatorChar c = true) ∧ ¬slashes <+: s.toList := by
  rw [isOperatorName, Bool.and_eq_true, Bool.and_eq_true, Bool.not_eq_true', List.all_eq_true,
    List.isEmpty_eq_false_iff, Bool.not_eq_true', Bool.eq_false_iff, ne_eq, ne_eq,
    List.isPrefixOf_iff_prefix, and_assoc]

/-- The list of all keywords has every keyword. -/
theorem Keyword.mem_all (k : Keyword) : k ∈ Keyword.all := by
  match k with
  | .precedenceGroup | .operator => decide
  | .groupAttribute .associativity | .groupAttribute .assignment => decide
  | .groupAttribute (.relation kind) => cases kind <;> decide
  | .associativity a => cases a <;> decide
  | .truth b => cases b <;> decide
  | .fixity f => cases f <;> decide

/-- Keywords are spelled like names. -/
theorem Keyword.isName_text (k : Keyword) : isName k.text = true := by
  have hall : ∀ k ∈ Keyword.all, isName k.text = true := by decide
  exact hall k k.mem_all

/-- No keyword begins with another one. -/
theorem Keyword.eq_of_prefix {k k' : Keyword} (h : k.text.toList <+: k'.text.toList) : k = k' := by
  have hall : ∀ k ∈ Keyword.all, ∀ k' ∈ Keyword.all,
      k.text.toList.isPrefixOf k'.text.toList = true → k = k' := by
    decide
  exact hall k k.mem_all k' k'.mem_all (List.isPrefixOf_iff_prefix.mpr h)

/-- No two keywords are spelled alike. -/
theorem Keyword.text_injective {k k' : Keyword} (h : k.text = k'.text) : k = k' :=
  eq_of_prefix (h ▸ List.prefix_refl _)

end Texts

/-! ## What is read at the front of a text -/

/-- A run of characters ends where the next one does not go on with it. -/
theorem takeWhile_append_of_endsAt {p : Char → Bool} {word rest : List Char}
    (hword : ∀ c ∈ word, p c = true) (hend : ∀ c ∈ rest.head?, p c = false) :
    (word ++ rest).takeWhile p = word := by
  rw [List.takeWhile_append_of_pos hword]
  cases rest with
  | nil => rw [List.takeWhile_nil, List.append_nil]
  | cons c rest =>
    have hc : ¬p c = true := Bool.eq_false_iff.mp (hend c rfl)
    rw [List.takeWhile_cons_of_neg hc, List.append_nil]

namespace Accepted

variable {a : Accepted} {s : String} {c : Char} {text rest : List Char} {terminal : Terminal}
  {n : Nat}

/-- No word is taken where none starts. -/
theorem word?_eq_none (h : isNameStart c = false) : a.word? (c :: rest) = none := by
  simp only [word?, h, Bool.false_eq_true, if_false]

theorem keyword?_eq_none (h : isNameStart c = false) : a.keyword? (c :: rest) = none := by
  rw [keyword?, Option.map_eq_none_iff, List.find?_eq_none]
  intro k _ hprefix
  obtain ⟨d, more, htext, hd, -⟩ := exists_of_isName k.isName_text
  rw [htext, List.isPrefixOf_iff_prefix, List.cons_prefix_cons] at hprefix
  rw [← hprefix.1, hd] at h
  cases h

theorem integer?_eq_none (h : c.isDigit = false) : integer? (c :: rest) = none := by
  have hlength : integerLength (c :: rest) = 0 := by
    unfold integerLength
    split
    · next heq =>
      cases heq
      have hzero : '0'.isDigit = true := by decide
      rw [hzero] at h
      cases h
    · next heq =>
      cases heq
      rw [h]
      rfl
    · rfl
  simp only [integer?, hlength]

theorem operator?_eq_none (h : isOperatorChar c = false) : operator? (c :: rest) = none := by
  rw [operator?, List.takeWhile_cons_of_neg (Bool.eq_false_iff.mp h)]
  rfl

/-- A name is taken to its end if the text does not go on as a name. It is a keyword if one is
spelled so. -/
theorem word?_append {found : Option Keyword} (hs : isName s = true)
    (hend : ∀ c ∈ rest.head?, isNameChar c = false)
    (hfind : a.keywords.find? (·.text.toList = s.toList) = found) :
    a.word? (s.toList ++ rest) = some (found.elim .name .keyword, s.toList.length) := by
  obtain ⟨c, more, htext, hc, hmore⟩ := exists_of_isName hs
  have hall : ∀ d ∈ s.toList, isNameChar d = true := by
    rw [htext]
    exact List.forall_mem_cons.mpr ⟨isNameChar_iff.mpr (.inl hc), hmore⟩
  have hword := takeWhile_append_of_endsAt hall hend
  rw [htext] at hfind
  rw [htext, List.cons_append] at hword ⊢
  simp only [word?, if_pos hc, hword, hfind]
  cases found <;> rfl

/-- A keyword that is accepted is found by its spelling. -/
theorem find?_keyword {k : Keyword} (hk : k ∈ a.keywords) :
    a.keywords.find? (·.text.toList = k.text.toList) = some k := by
  obtain ⟨k', hfind⟩ : ∃ k', a.keywords.find? (·.text.toList = k.text.toList) = some k' := by
    rw [← Option.isSome_iff_exists, List.find?_isSome]
    exact ⟨k, hk, decide_eq_true rfl⟩
  have htext : k'.text.toList = k.text.toList := by simpa using List.find?_some hfind
  rw [hfind, Keyword.text_injective (String.toList_inj.mp htext)]

/-- A keyword that is accepted is taken whatever stands behind it. -/
theorem keyword?_append {k : Keyword} (hk : k ∈ a.keywords) (rest : List Char) :
    a.keyword? (k.text.toList ++ rest) = some (.keyword k, k.text.toList.length) := by
  obtain ⟨k', hfind⟩ : ∃ k',
      a.keywords.find? (·.text.toList.isPrefixOf (k.text.toList ++ rest)) = some k' := by
    rw [← Option.isSome_iff_exists, List.find?_isSome]
    exact ⟨k, hk, List.isPrefixOf_iff_prefix.mpr (List.prefix_append _ _)⟩
  -- two keywords with which one text begins are the same
  have hfound : k'.text.toList <+: k.text.toList ++ rest := by simpa using List.find?_some hfind
  have heq : k' = k := by
    rcases List.prefix_or_prefix_of_prefix hfound (List.prefix_append _ rest) with h | h
    · exact Keyword.eq_of_prefix h
    · exact (Keyword.eq_of_prefix h).symm
  rw [keyword?, hfind, heq]
  rfl

/-- An integer is taken to its end if the text does not go on as a name. -/
theorem integer?_append (hs : isInteger s = true) (hend : ∀ c ∈ rest.head?, isNameChar c = false) :
    integer? (s.toList ++ rest) = some (.integer, s.toList.length) := by
  have hend' {p : Char → Bool} (hp : ∀ c, p c = true → isNameChar c = true) :
      ∀ c ∈ rest.head?, p c = false := by
    intro c hc
    rw [Bool.eq_false_iff]
    intro hpc
    exact Bool.eq_false_iff.mp (hend c hc) (hp c hpc)
  rcases exists_of_isInteger hs with ⟨c, more, htext, hall⟩ | ⟨c, more, htext, hc, hmore⟩
  · have hdigits : ((c :: more) ++ rest).takeWhile isHexDigitOrGap = c :: more :=
      takeWhile_append_of_endsAt hall (hend' fun _ => isNameChar_of_isHexDigitOrGap)
    rw [htext]
    simp only [List.cons_append, integer?, integerLength] at hdigits ⊢
    rw [hdigits]
    rfl
  · have hdigits : (more ++ rest).takeWhile isDigitOrGap = more :=
      takeWhile_append_of_endsAt hmore (hend' fun _ => isNameChar_of_isDigitOrGap)
    have hlength : integerLength (c :: (more ++ rest)) = more.length + 1 := by
      unfold integerLength
      split
      · next heq =>
        -- neither a digit nor what follows a literal is an `x`
        injection heq with _ heq
        cases more with
        | nil =>
          have hx : isNameChar 'x' = false := hend 'x' (by rw [← List.nil_append rest, heq]; rfl)
          cases hx
        | cons d more =>
          injection heq with hd _
          have hx : isDigitOrGap 'x' = true := hd ▸ hmore d List.mem_cons_self
          cases hx
      · next heq =>
        cases heq
        rw [if_pos hc, hdigits]
      · next heq => cases heq
    rw [htext, List.cons_append]
    simp only [integer?, hlength, List.length_cons]

/-- An operator is taken to its end if the text does not go on as one. -/
theorem operator?_append (hs : isOperatorName s = true)
    (hend : ∀ c ∈ rest.head?, isOperatorChar c = false) :
    operator? (s.toList ++ rest) = some (.operator, s.toList.length) := by
  obtain ⟨hne, hall, -⟩ := isOperatorName_iff.mp hs
  obtain ⟨c, more, htext⟩ := List.exists_cons_of_ne_nil hne
  rw [operator?, takeWhile_append_of_endsAt hall hend, htext]
  rfl

/-- A mark that is accepted is taken. -/
theorem mark?_append {m : Mark} (hm : m ∈ a.marks) (rest : List Char) :
    a.mark? (m.char :: rest) = some (.mark m, 1) := by
  obtain ⟨m', hfind⟩ : ∃ m', a.marks.find? (·.char = m.char) = some m' := by
    rw [← Option.isSome_iff_exists, List.find?_isSome]
    exact ⟨m, hm, decide_eq_true rfl⟩
  have hchar : m'.char = m.char := by simpa using List.find?_some hfind
  have heq : m' = m := by
    cases m <;> cases m' <;> first | rfl | exact absurd hchar (by decide)
  rw [mark?, hfind, heq]
  rfl

/-- A lexeme with a place is read in front of what does not go on with it. -/
theorem lexeme?_of_takes {l : Lexeme} (h : a.Takes l) (hend : l.EndsAt rest) :
    a.lexeme? (l.text.toList ++ rest) = some (l.terminal, l.text.toList.length) := by
  obtain ⟨terminal, s⟩ := l
  cases terminal with
  | name =>
    obtain ⟨hname, hs, hfree⟩ := h
    -- no keyword that the state takes is spelled like the name
    have hnone : a.keywords.find? (·.text.toList = s.toList) = none := by
      rw [List.find?_eq_none]
      intro k hk heq
      exact hfree k hk (String.toList_inj.mp (of_decide_eq_true heq))
    rw [lexeme?, if_pos hname, word?_append hs hend hnone]
    rfl
  | keyword k =>
    obtain ⟨hk, rfl⟩ := h
    rw [lexeme?]
    cases hname : a.name with
    | true =>
      rw [if_pos rfl, word?_append k.isName_text hend (find?_keyword hk)]
      rfl
    | false =>
      rw [if_neg Bool.false_ne_true, keyword?_append hk]
      rfl
  | integer =>
    obtain ⟨hinteger, hs⟩ := h
    have hread := integer?_append hs hend
    obtain ⟨c, more, htext, hc⟩ : ∃ c more, s.toList = c :: more ∧ c.isDigit = true := by
      rcases exists_of_isInteger hs with ⟨c, more, htext, -⟩ | ⟨c, more, htext, hc, -⟩
      · exact ⟨'0', _, htext, by decide⟩
      · exact ⟨c, more, htext, hc⟩
    rw [htext, List.cons_append] at hread ⊢
    have hstart := isNameStart_of_isDigit hc
    rw [lexeme?, word?_eq_none hstart, keyword?_eq_none hstart, if_pos hinteger, hread]
    cases a.name <;> rfl
  | operator =>
    obtain ⟨hoperator, hs⟩ := h
    have hread := operator?_append hs hend
    obtain ⟨hne, hall, -⟩ := isOperatorName_iff.mp hs
    -- its first character is no letter and no digit, so the readers tried before it take nothing
    obtain ⟨c, more, htext⟩ := List.exists_cons_of_ne_nil hne
    obtain ⟨hstart, hdigit⟩ := not_or.mp (mt isNameChar_iff.mpr
      (Bool.eq_false_iff.mp (of_isOperatorChar (hall c (htext ▸ List.mem_cons_self))).1))
    rw [htext, List.cons_append] at hread ⊢
    rw [lexeme?, word?_eq_none (Bool.eq_false_iff.mpr hstart),
      keyword?_eq_none (Bool.eq_false_iff.mpr hstart),
      integer?_eq_none (Bool.eq_false_iff.mpr hdigit), if_pos hoperator, hread]
    cases a.name <;> cases a.integer <;> rfl
  | mark m =>
    obtain ⟨hm, rfl⟩ := h
    obtain ⟨hchar, hop, -⟩ := m.char_class
    obtain ⟨hstart, hdigit⟩ := not_or.mp (mt isNameChar_iff.mpr (Bool.eq_false_iff.mp hchar))
    rw [String.toList_singleton, List.singleton_append, lexeme?,
      word?_eq_none (Bool.eq_false_iff.mpr hstart), keyword?_eq_none (Bool.eq_false_iff.mpr hstart),
      integer?_eq_none (Bool.eq_false_iff.mpr hdigit), operator?_eq_none hop, mark?_append hm]
    cases a.name <;> cases a.integer <;> cases a.operator <;> rfl
  | endOfText => exact h.elim

/-! ## What has been read -/

theorem take_length_takeWhile (p : Char → Bool) (text : List Char) :
    text.take (text.takeWhile p).length = text.takeWhile p :=
  (List.prefix_iff_eq_take.mp (List.takeWhile_prefix p)).symm

/-- What is taken as a word is one that is accepted. -/
theorem takes_of_word? (hname : a.name = true) (h : a.word? text = some (terminal, n)) :
    a.Takes ⟨terminal, String.ofList (text.take n)⟩ := by
  cases text with
  | nil => cases h
  | cons c rest =>
    rw [word?] at h
    split at h
    · next hc =>
      have hword : isName (String.ofList ((c :: rest).takeWhile isNameChar)) = true := by
        rw [isName, String.toList_ofList, List.takeWhile_cons_of_pos (isNameChar_iff.mpr (.inl hc))]
        simp only [hc, Bool.true_and, List.all_eq_true]
        exact fun d hd => List.mem_takeWhile_imp hd
      simp only at h
      split at h
      · -- the word is a keyword of the state, or a name that is none of them
        next k hfind =>
        cases h
        have htext : k.text.toList = (c :: rest).takeWhile isNameChar := by
          simpa using List.find?_some hfind
        rw [take_length_takeWhile, ← htext, String.ofList_toList]
        exact ⟨List.mem_of_find?_eq_some hfind, rfl⟩
      · next hfind =>
        cases h
        rw [take_length_takeWhile]
        refine ⟨hname, hword, fun k hk heq => ?_⟩
        have hne := List.find?_eq_none.mp hfind k hk
        rw [heq, String.toList_ofList] at hne
        exact hne (decide_eq_true rfl)
    · cases h

/-- What is taken as a keyword is one that is accepted. -/
theorem takes_of_keyword? (h : a.keyword? text = some (terminal, n)) :
    a.Takes ⟨terminal, String.ofList (text.take n)⟩ := by
  obtain ⟨k, hfind, heq⟩ := Option.map_eq_some_iff.mp h
  cases heq
  have hprefix : k.text.toList <+: text := by simpa using List.find?_some hfind
  rw [← List.prefix_iff_eq_take.mp hprefix, String.ofList_toList]
  exact ⟨List.mem_of_find?_eq_some hfind, rfl⟩

/-- The digits of an integer are part of the text. -/
theorem integerLength_le (text : List Char) : integerLength text ≤ text.length := by
  unfold integerLength
  split
  · next rest =>
    have hlength := (List.takeWhile_prefix (l := rest) isHexDigitOrGap).length_le
    split <;> simp only [List.length_cons] <;> omega
  · next c rest _ =>
    have hlength := (List.takeWhile_prefix (l := rest) isDigitOrGap).length_le
    split <;> simp only [List.length_cons] <;> omega
  · exact Nat.zero_le _

/-- What is taken as an integer is spelled like one. -/
theorem isInteger_of_integerLength (h : integerLength text = n + 1) :
    isInteger (String.ofList (text.take (n + 1))) = true := by
  unfold integerLength at h
  split at h
  · next rest =>
    split at h
    · cases h
      rw [isInteger, String.toList_ofList]
      rfl
    · next k hlength =>
      cases h
      have hdigits : ∀ d ∈ rest.takeWhile isHexDigitOrGap, isHexDigitOrGap d = true :=
        fun d hd => List.mem_takeWhile_imp hd
      rw [← take_length_takeWhile, hlength] at hdigits
      obtain ⟨c, more, htake⟩ : ∃ c more, rest.take (k + 1) = c :: more := by
        cases rest with
        | nil => cases hlength
        | cons c rest => exact ⟨c, rest.take k, rfl⟩
      rw [htake] at hdigits
      rw [List.take_succ_cons, List.take_succ_cons, htake, isInteger, String.toList_ofList]
      exact List.all_eq_true.mpr hdigits
  · next c rest _ =>
    split at h
    · next hc =>
      cases h
      have hdigits : ∀ d ∈ rest.takeWhile isDigitOrGap, isDigitOrGap d = true :=
        fun d hd => List.mem_takeWhile_imp hd
      rw [List.take_succ_cons, take_length_takeWhile, isInteger, String.toList_ofList]
      split
      · next heq =>
        injection heq with _ heq
        -- a decimal literal has no `x`, so it is not read as a hexadecimal one
        have hx : isDigitOrGap 'x' = true := hdigits 'x' (heq ▸ List.mem_cons_self)
        cases hx
      · next heq =>
        cases heq
        rw [hc, List.all_eq_true.mpr hdigits]
        rfl
      · next heq => cases heq
    · cases h
  · cases h

/-- An integer that is taken is one, where integers are accepted. -/
theorem takes_of_integer? (hinteger : a.integer = true) (h : integer? text = some (terminal, n)) :
    a.Takes ⟨terminal, String.ofList (text.take n)⟩ := by
  rw [integer?] at h
  split at h
  · cases h
  · next hlength =>
    cases h
    obtain ⟨k, hk⟩ := Nat.exists_eq_succ_of_ne_zero hlength
    rw [hk]
    exact ⟨hinteger, isInteger_of_integerLength hk⟩

/-- An operator that is taken is one, where operators are accepted and no comment begins. -/
theorem takes_of_operator? (hoperator : a.operator = true) (hcomment : ¬slashes <+: text)
    (h : operator? text = some (terminal, n)) :
    a.Takes ⟨terminal, String.ofList (text.take n)⟩ := by
  rw [operator?] at h
  split at h
  · cases h
  · next hlength =>
    cases h
    rw [take_length_takeWhile]
    refine ⟨hoperator, isOperatorName_iff.mpr ?_⟩
    rw [String.toList_ofList]
    refine ⟨fun hnil => hlength (by rw [hnil]; rfl), fun c hc => List.mem_takeWhile_imp hc, ?_⟩
    exact fun hslashes => hcomment (hslashes.trans (List.takeWhile_prefix _))

/-- What is taken as a mark is one that is accepted. -/
theorem takes_of_mark? (h : a.mark? text = some (terminal, n)) :
    a.Takes ⟨terminal, String.ofList (text.take n)⟩ := by
  cases text with
  | nil => cases h
  | cons c rest =>
    obtain ⟨m, hfind, heq⟩ := Option.map_eq_some_iff.mp h
    cases heq
    have hchar : m.char = c := by simpa using List.find?_some hfind
    refine ⟨List.mem_of_find?_eq_some hfind, ?_⟩
    rw [hchar]
    rfl

/-- What is read is a word, a keyword, an integer literal, an operator or a mark, each where the
grammar takes it. -/
theorem of_lexeme? (h : a.lexeme? text = some (terminal, n)) :
    (a.name = true ∧ a.word? text = some (terminal, n)) ∨
    (a.keyword? text = some (terminal, n)) ∨
    (a.integer = true ∧ integer? text = some (terminal, n)) ∨
    (a.operator = true ∧ operator? text = some (terminal, n)) ∨
    a.mark? text = some (terminal, n) := by
  have hchoice {x y : Option (Terminal × Nat)} (h : (x <|> y) = some (terminal, n)) :
      x = some (terminal, n) ∨ y = some (terminal, n) := by
    cases x with
    | none => exact .inr h
    | some _ => exact .inl h
  rw [lexeme?] at h
  rcases (hchoice h).imp_right fun h => (hchoice h).imp_right hchoice with h | h | h | h
  · split at h
    · next hname => exact .inl ⟨hname, h⟩
    · exact .inr (.inl h)
  · split at h
    · next hinteger => exact .inr (.inr (.inl ⟨hinteger, h⟩))
    · cases h
  · split at h
    · next hoperator => exact .inr (.inr (.inr (.inl ⟨hoperator, h⟩)))
    · cases h
  · exact .inr (.inr (.inr (.inr h)))

/-- No more is read than there is. -/
theorem length_le_of_lexeme? (h : a.lexeme? text = some (terminal, n)) : n ≤ text.length := by
  -- words, operators and digits are all runs of one kind of character
  have hrun (p : Char → Bool) (text : List Char) : (text.takeWhile p).length ≤ text.length :=
    (List.takeWhile_prefix p).length_le
  rcases of_lexeme? h with ⟨-, h⟩ | h | ⟨-, h⟩ | ⟨-, h⟩ | h
  · cases text with
    | nil => cases h
    | cons c rest =>
      rw [word?] at h
      split at h
      · simp only at h
        split at h <;> cases h <;> exact hrun _ _
      · cases h
  · obtain ⟨k, hfind, heq⟩ := Option.map_eq_some_iff.mp h
    cases heq
    have hprefix : k.text.toList <+: text := by simpa using List.find?_some hfind
    exact hprefix.length_le
  · rw [integer?] at h
    split at h <;> cases h
    exact integerLength_le text
  · rw [operator?] at h
    split at h <;> cases h
    exact hrun _ _
  · cases text with
    | nil => cases h
    | cons c rest =>
      obtain ⟨m, -, heq⟩ := Option.map_eq_some_iff.mp h
      cases heq
      exact Nat.le_add_left 1 _

/-- Whatever is read has a place, unless a comment begins there. -/
theorem takes_of_lexeme? (hcomment : ¬slashes <+: text)
    (h : a.lexeme? text = some (terminal, n)) :
    a.Takes ⟨terminal, String.ofList (text.take n)⟩ := by
  rcases of_lexeme? h with ⟨hname, h⟩ | h | ⟨hinteger, h⟩ | ⟨hoperator, h⟩ | h
  · exact takes_of_word? hname h
  · exact takes_of_keyword? h
  · exact takes_of_integer? hinteger h
  · exact takes_of_operator? hoperator hcomment h
  · exact takes_of_mark? h

end Accepted

end OperatorFold.Source
