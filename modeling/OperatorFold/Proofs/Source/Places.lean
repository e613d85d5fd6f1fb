import Mathlib.Data.List.Induction
import OperatorFold.Proofs.Source.Reading

/-! # Places in a text

A place names a line and a column, and a text is cut at two places by looking them up again
(`textFrom`, `cutBetween`): the lines in front of a place are passed over, and then the characters
in front of it on its line. The reader never looks a place up; it moves one along character by
character (`Position.afterAll`). The two agree: the place behind the first part of a text is where
its second part is found (`textFrom_afterAll`).

The tokens of a text that is read stand in it in this sense (`exists_stands`): each begins behind
some layout and ends behind its own characters, and the next one goes on from there.
-/

namespace OperatorFold.Source

variable {p q r : Position} {c : Char} {text front back body : List Char}

/-! ## The order of places -/

namespace Position

/-- A place stands in front of another one, or is the same. -/
instance : LE Position := ⟨fun p q => p.line < q.line ∨ p.line = q.line ∧ p.column ≤ q.column⟩

/-- A place stands in front of another one. -/
instance : LT Position := ⟨fun p q => p.line < q.line ∨ p.line = q.line ∧ p.column < q.column⟩

theorem le_iff : p ≤ q ↔ p.line < q.line ∨ p.line = q.line ∧ p.column ≤ q.column := Iff.rfl

theorem lt_iff : p < q ↔ p.line < q.line ∨ p.line = q.line ∧ p.column < q.column := Iff.rfl

theorem le_trans (h : p ≤ q) (h' : q ≤ r) : p ≤ r := by
  rw [le_iff] at *
  omega

theorem lt_of_lt_of_le (h : p < q) (h' : q ≤ r) : p < r := by
  rw [le_iff] at h'
  rw [lt_iff] at *
  omega

theorem le_of_lt (h : p < q) : p ≤ q := by
  rw [lt_iff] at h
  rw [le_iff]
  omega

/-- Every character moves the position on. -/
theorem lt_after (p : Position) (c : Char) : p < p.after c := by
  rw [lt_iff, after]
  split
  · exact .inl (Nat.lt_succ_self _)
  · exact .inr ⟨rfl, Nat.lt_succ_self _⟩

@[simp] theorem afterAll_nil (p : Position) : p.afterAll [] = p := rfl

@[simp] theorem afterAll_cons (p : Position) (c : Char) (text : List Char) :
    p.afterAll (c :: text) = (p.after c).afterAll text := rfl

/-- The position moves over a text in two parts as it does in one. -/
theorem afterAll_append (p : Position) (front back : List Char) :
    p.afterAll (front ++ back) = (p.afterAll front).afterAll back :=
  List.foldl_append

/-- No text moves the position back. -/
theorem le_afterAll (p : Position) (text : List Char) : p ≤ p.afterAll text := by
  induction text generalizing p with
  | nil => exact .inr ⟨rfl, Nat.le_refl _⟩
  | cons c text ih => exact le_trans (le_of_lt (p.lt_after c)) (ih _)

/-- Some text moves the position on. -/
theorem lt_afterAll (p : Position) (h : text ≠ []) : p < p.afterAll text := by
  obtain ⟨c, rest, rfl⟩ := List.exists_cons_of_ne_nil h
  exact lt_of_lt_of_le (p.lt_after c) (le_afterAll _ rest)

end Position

/-! ## Looking up a place -/

/-- What stands behind the first newline of a text, if there is one. -/
def nextLine? (text : List Char) : Option (List Char) :=
  match text.dropWhile (· ≠ '\n') with
  | [] => none
  | _ :: rest => some rest

/-- What stands in a text behind so many lines, if it has them. -/
def behindLines (text : List Char) : Nat → Option (List Char)
  | 0 => some text
  | n + 1 => (behindLines text n).bind nextLine?

/-- What stands in a text from a place on, if it has the place: there must be a line and, on this
line or right behind it, a column of these numbers. -/
def textFrom (text : List Char) (p : Position) : Option (List Char) :=
  match p.line, p.column with
  | line + 1, column + 1 =>
    (behindLines text line).bind fun here =>
      if column ≤ (here.takeWhile (· ≠ '\n')).length then some (here.drop column) else none
  | _, _ => none

/-- What stands in a text from one place up to another, if it has both and in this order. -/
def cutBetween (text : List Char) (start stop : Option Position) : Option (List Char) := do
  let front ← textFrom text (← start)
  let back ← textFrom text (← stop)
  if back.length ≤ front.length then some (front.take (front.length - back.length)) else none

theorem decide_ne_newline (h : '\n' ∉ text) : ∀ c ∈ text, decide (c ≠ '\n') = true :=
  fun _ hc => decide_eq_true fun heq => h (heq ▸ hc)

/-- The next line of a text begins behind its first newline. -/
theorem nextLine?_append (hfront : '\n' ∉ front) :
    nextLine? (front ++ '\n' :: back) = some back := by
  rw [nextLine?, List.dropWhile_append_of_pos (decide_ne_newline hfront)]
  rfl

/-- The place behind the first part of a text lies on the line on which that part ends, as many
columns along as it has characters on that line. -/
theorem exists_line (front back : List Char) :
    ∃ n line, ({} : Position).afterAll front = ⟨n + 1, line.length + 1⟩ ∧ '\n' ∉ line ∧
      behindLines (front ++ back) n = some (line ++ back) := by
  induction front using List.reverseRecOn generalizing back with
  | nil => exact ⟨0, [], rfl, List.not_mem_nil, rfl⟩
  | append_singleton front c ih =>
    obtain ⟨n, line, hplace, hline, hbehind⟩ := ih (c :: back)
    rw [List.append_assoc, List.singleton_append, Position.afterAll_append, hplace]
    by_cases hc : c = '\n'
    · -- the character ends the line, and the place moves to the front of the next one
      subst hc
      refine ⟨n + 1, [], rfl, List.not_mem_nil, ?_⟩
      rw [behindLines, hbehind]
      exact nextLine?_append hline
    · refine ⟨n, line ++ [c], ?_, ?_, ?_⟩
      · rw [Position.afterAll_cons, Position.afterAll_nil, Position.after, if_neg hc,
          List.length_append]
        rfl
      · rw [List.mem_append, List.mem_singleton, not_or]
        exact ⟨hline, Ne.symm hc⟩
      · rw [hbehind, List.append_assoc]
        rfl

/-- The second part of a text is found at the place behind the first. -/
theorem textFrom_afterAll (front back : List Char) :
    textFrom (front ++ back) (({} : Position).afterAll front) = some back := by
  obtain ⟨n, line, hplace, hline, hbehind⟩ := exists_line front back
  have hlength : line.length ≤ ((line ++ back).takeWhile (· ≠ '\n')).length := by
    rw [List.takeWhile_append_of_pos (decide_ne_newline hline), List.length_append]
    exact Nat.le_add_right _ _
  rw [hplace]
  simp only [textFrom, hbehind, Option.bind_some]
  rw [if_pos hlength, List.drop_left]

/-- The middle part of a text is cut out at the places in front of it and behind it. -/
theorem cutBetween_afterAll (front body back : List Char) :
    cutBetween (front ++ (body ++ back)) (some (({} : Position).afterAll front))
      (some (({} : Position).afterAll (front ++ body))) = some body := by
  have hstop := textFrom_afterAll (front ++ body) back
  rw [List.append_assoc] at hstop
  simp only [cutBetween, textFrom_afterAll, hstop, Option.bind_eq_bind, Option.bind_some,
    List.length_append, Nat.le_add_left, if_true, Nat.add_sub_cancel_right, List.take_left]

/-! ## The places of tokens -/

/-- A comment may begin with any other character as well. -/
theorem IsLayout.comment_cons {layout : List Char} (h : IsLayout (slashes ++ layout))
    (hc : c ≠ '\n') : IsLayout (slashes ++ c :: layout) := by
  generalize hwhole : slashes ++ layout = whole at h
  cases h with
  | nil => cases hwhole
  | blank hblank =>
    cases hwhole
    cases hblank
  | @comment line rest hline h =>
    cases hwhole
    have hline' : '\n' ∉ c :: line := by
      rw [List.mem_cons, not_or]
      exact ⟨Ne.symm hc, hline⟩
    exact .comment hline' h

/-- What ends a comment in front of the rest of a text: if that is empty, a newline is missing. -/
def missingNewline : List Char → List Char
  | [] => ['\n']
  | _ :: _ => []

/-- What is skipped is layout, and the place moves along it. -/
theorem exists_skipped (inComment : Bool) (text : List Char) (p : Position) :
    ∃ layout rest, skipLayout inComment text p = ⟨rest, p.afterAll layout⟩ ∧ text = layout ++ rest ∧
      IsLayout ((if inComment then slashes ++ layout else layout) ++ missingNewline rest) := by
  fun_induction skipLayout inComment text p with
  | case1 inComment p =>
    refine ⟨[], [], rfl, rfl, ?_⟩
    cases inComment with
    | true => exact .comment List.not_mem_nil .nil
    | false => exact .blank rfl .nil
  | case2 c text p ih =>
    obtain ⟨layout, rest, hskip, rfl, hlayout⟩ := ih
    refine ⟨c :: layout, rest, hskip, rfl, ?_⟩
    -- a newline ends the comment, and any other character belongs to it
    by_cases hc : c = '\n'
    · subst hc
      exact .comment List.not_mem_nil hlayout
    · simp only [ne_eq, hc, not_false_eq_true, decide_true, if_true, List.append_assoc] at hlayout ⊢
      exact hlayout.comment_cons hc
  | case3 text p ih =>
    obtain ⟨layout, rest, hskip, rfl, hlayout⟩ := ih
    exact ⟨'/' :: '/' :: layout, rest, hskip, rfl, hlayout⟩
  | case4 c text p hcomment hblank ih =>
    obtain ⟨layout, rest, hskip, rfl, hlayout⟩ := ih
    exact ⟨c :: layout, rest, hskip, rfl, .blank hblank hlayout⟩
  | case5 c text p => exact ⟨[], c :: text, rfl, rfl, .nil⟩

/-- Where nothing more is read, there is only layout, of which the last comment may lack its
newline. -/
theorem Accepted.layout_of_read {a : Accepted} {cursor : Cursor} (h : a.read cursor = .finished) :
    IsLayout (cursor.rest ++ ['\n']) := by
  obtain ⟨layout, rest, hskip, hcursor, hlayout⟩ :=
    exists_skipped false cursor.rest cursor.position
  rw [read, Cursor.skip, hskip] at h
  cases rest with
  | nil =>
    rw [List.append_nil] at hcursor
    rw [hcursor]
    exact hlayout
  | cons c rest =>
    simp only at h
    split at h
    · cases h
    · split at h <;> cases h

/-- Some tokens stand in a text that begins at a place: each behind some layout, at the place to
which this leads, up to the end of its characters. The text ends with the last token. -/
inductive Stands : Position → List Token → List Char → Prop
  | nil (p : Position) : Stands p [] []
  | cons {p : Position} {t : Token} {ts : List Token} {layout rest : List Char}
      (hlayout : IsLayout layout) (hne : t.text.toList ≠ []) (hstart : t.start = p.afterAll layout)
      (hstop : t.stop = t.start.afterAll t.text.toList) (hrest : Stands t.stop ts rest) :
      Stands p (t :: ts) (layout ++ (t.text.toList ++ rest))

/-- What is read stands at the place that layout leads to, and reading goes on behind it. -/
theorem Accepted.exists_of_read {a : Accepted} {cursor next : Cursor} {t : Token}
    (h : a.read cursor = .token t next) :
    ∃ layout, IsLayout layout ∧ t.text.toList ≠ [] ∧
      cursor.rest = layout ++ (t.text.toList ++ next.rest) ∧
      t.start = cursor.position.afterAll layout ∧ t.stop = t.start.afterAll t.text.toList ∧
      next.position = t.stop := by
  obtain ⟨layout, rest, hskip, hcursor, hlayout⟩ :=
    exists_skipped false cursor.rest cursor.position
  rw [read, Cursor.skip, hskip] at h
  cases rest with
  | nil => cases h
  | cons c rest =>
    simp only at h
    split at h
    · next terminal n _ =>
      cases h
      have htext : (Cursor.token ⟨c :: rest, cursor.position.afterAll layout⟩ terminal
          (n + 1)).text.toList = c :: rest.take n := String.toList_ofList
      rw [htext]
      refine ⟨layout, ?_, List.cons_ne_nil _ _, ?_, rfl, rfl, rfl⟩
      · -- text follows the layout, so its last comment has a newline of its own
        rw [missingNewline, List.append_nil] at hlayout
        exact hlayout
      · rw [hcursor, Cursor.advance, List.cons_append, List.drop_succ_cons, List.take_append_drop]
    · split at h <;> cases h

/-- The tokens of a text that is read stand in it, and behind them there is only layout. -/
theorem exists_stands {file : Option String} {p : Progress} {last : Position} {cursor : Cursor}
    {items : List (Item Node)} (h : readItems file p last cursor = .ok items) :
    ∃ body back, cursor.rest = body ++ back ∧
      Stands cursor.position (tokensFrom file p cursor) body ∧ IsLayout (back ++ ['\n']) := by
  fun_induction readItems file p last cursor with
  | case1 => cases h
  | case2 p last cursor hread =>
    rw [tokensFrom_finished hread]
    exact ⟨[], cursor.rest, rfl, .nil _, Accepted.layout_of_read hread⟩
  | case3 => cases h
  | case4 p last cursor t next hread q hstep ih =>
    obtain ⟨body, back, hrest, hstands, hback⟩ := ih h
    obtain ⟨layout, hlayout, hne, hcursor, hstart, hstop, hnext⟩ := Accepted.exists_of_read hread
    rw [tokensFrom_token hread hstep]
    -- the layout in front of a token is part of the body, and that behind the last one is not
    refine ⟨layout ++ (t.text.toList ++ body), back, ?_, ?_, hback⟩
    · rw [hcursor, hrest, List.append_assoc, List.append_assoc]
    · exact .cons hlayout hne hstart hstop (hnext ▸ hstands)
  | case5 => cases h

namespace Stands

variable {t : Token} {ts us : List Token}

/-- The tokens of the first part of a run stand in the first part of its text, and the others in
the rest. -/
theorem of_append (h : Stands p (ts ++ us) text) :
    ∃ front back, text = front ++ back ∧ Stands p ts front ∧ Stands (p.afterAll front) us back := by
  induction ts generalizing p text with
  | nil => exact ⟨[], text, rfl, .nil p, h⟩
  | cons t ts ih =>
    cases h with
    | @cons _ _ _ layout rest hlayout hne hstart hstop hrest =>
      obtain ⟨front, back, rfl, hts, hus⟩ := ih hrest
      refine ⟨layout ++ (t.text.toList ++ front), back, ?_, .cons hlayout hne hstart hstop hts, ?_⟩
      · rw [List.append_assoc, List.append_assoc]
      · rw [Position.afterAll_append, Position.afterAll_append, ← hstart, ← hstop]
        exact hus

/-- The text of one token is layout with the token behind it. -/
theorem of_singleton (h : Stands p [t] text) :
    ∃ layout, IsLayout layout ∧ text = layout ++ t.text.toList := by
  cases h with
  | @cons _ _ _ layout rest hlayout _ _ _ hrest =>
    cases hrest
    exact ⟨layout, hlayout, by rw [List.append_nil]⟩

/-- A run of tokens ends with the last one. -/
theorem getLast?_stop (h : Stands p ts text) (hne : ts ≠ []) :
    ts.getLast?.map Token.stop = some (p.afterAll text) := by
  induction h with
  | nil => exact absurd rfl hne
  | @cons p t ts layout rest _ _ hstart hstop hrest ih =>
    rw [Position.afterAll_append, Position.afterAll_append, ← hstart, ← hstop]
    cases ts with
    | nil =>
      cases hrest
      rfl
    | cons u ts => exact ih (List.cons_ne_nil _ _)

/-- A run of tokens begins with the first one, behind some layout. -/
theorem exists_body (h : Stands p ts text) (hne : ts ≠ []) :
    ∃ layout body, IsLayout layout ∧ body ≠ [] ∧ text = layout ++ body ∧
      ts.head?.map Token.start = some (p.afterAll layout) := by
  cases h with
  | nil => exact absurd rfl hne
  | @cons _ t ts layout rest hlayout hchars hstart _ _ =>
    exact ⟨layout, t.text.toList ++ rest, hlayout, List.append_ne_nil_of_left_ne_nil hchars _, rfl,
      congrArg some hstart⟩

end Stands

end OperatorFold.Source
