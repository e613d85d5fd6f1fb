import OperatorFold.Proofs.Source.Derivation
import OperatorFold.Proofs.Source.Places

/-! # The spans of what is read

The text of a source file, cut at the span of a name, a literal, an operator or a related group, is
exactly that word. Parentheses reach from the one that opens to the one that closes, with nothing
but layout between them and what they enclose. A sequence reaches from its first element to its
last, and a statement as far as its expression. Declarations begin with their keywords and end with
their last names or the brace that closes. All items of a file stand in order and apart from each
other, and so do the elements of a sequence; outside of the items there is only layout
(`parseSource_spans`).

Every node and every declaration comes from tokens in a row, and its span reaches from the first of
them to the last (`Covers`). So all of this follows from where tokens stand.
-/

namespace OperatorFold

open Source

/-! ## The ends of a span -/

namespace Span

/-- The place where a span begins. -/
def start? (s : Span) : Option Position := do
  pure ⟨(← s.line).toNat, (← s.column).toNat⟩

/-- The place where a span ends. -/
def stop? (s : Span) : Option Position := do
  pure ⟨(← s.endLine).toNat, (← s.endColumn).toNat⟩

/-- A span ends before another one begins, or right there, and neither is empty. -/
def Before (s s' : Span) : Prop :=
  ∃ p q p' q', s.start? = some p ∧ s.stop? = some q ∧ s'.start? = some p' ∧ s'.stop? = some q' ∧
    p < q ∧ q ≤ p' ∧ p' < q'

end Span

/-- The span of an entry of a source file. -/
def Item.span : Item Node → Span
  | .declaration (.group g) => g.span
  | .declaration (.operator op) => op.span
  | .node n => spanOf n

namespace Source

/-- What a text has at a span. -/
def cut (text : List Char) (s : Span) : Option (List Char) := cutBetween text s.start? s.stop?

/-- Apart from what it has at some spans a text has only layout, of which the last comment may lack
its newline. -/
def LayoutOutside (text : List Char) (spans : List Span) : Prop :=
  ∃ (pieces : List (List Char × List Char)) (back : List Char),
    text = pieces.flatMap (fun piece => piece.1 ++ piece.2) ++ back ∧
    spans.map (cut text) = pieces.map (fun piece => some piece.2) ∧
    (∀ piece ∈ pieces, IsLayout piece.1) ∧ IsLayout (back ++ ['\n'])

/-- What a text has at one span is in parentheses, and these reach over another one; between the
parentheses and what they enclose there is only layout. -/
def Parenthesizes (text : List Char) (outer inner : Span) : Prop :=
  ∃ before inside after, IsLayout before ∧ IsLayout after ∧
    cut text outer = some ('(' :: (before ++ (inside ++ (after ++ [')'])))) ∧
    cut text inner = some inside ∧
    cutBetween text outer.start? inner.start? = some ('(' :: before) ∧
    cutBetween text inner.stop? outer.stop? = some (after ++ [')'])

/-- A node of a statement stands in a text where its span says. -/
def PlacedNode (file : Option String) (text : List Char) : Node → Prop
  | .name ident span => cut text span = some ident.toList
  | .integer digits span => cut text span = some digits.toList
  | .operator use => cut text use.span = some use.name.toList
  | .paren inner span => Parenthesizes text span (spanOf inner)
  | .sequence elements span =>
    (∃ first ∈ elements.head?, span.start? = (spanOf first).start?) ∧
      (∃ last ∈ elements.getLast?, span.stop? = (spanOf last).stop?) ∧
      (elements.map spanOf).Pairwise Span.Before
  | .statement e span =>
    span = { spanOf e with file := file } ∧ (file ≠ some "" → span = spanOf e)
  | .binary .. | .sourceFile .. | .bare => False

/-- A declaration stands in a text where its span says. -/
def PlacedDeclaration (text : List Char) : Declaration → Prop
  | .group g =>
    (∃ body, cut text g.span = some body ∧ "precedencegroup".toList <+: body ∧ ['\x7d'] <:+ body) ∧
      ∀ r ∈ g.relations, cut text r.span = some r.target.toList
  | .operator op =>
    ∃ body, cut text op.span = some body ∧ op.fixity.text.toList <+: body ∧
      (op.groupName.getD op.name).toList <:+ body

/-! ## Spans over tokens -/

/-- A span reaches from the first of some tokens to the last. -/
structure Covers (s : Span) (ts : List Token) : Prop where
  ne_nil : ts ≠ []
  start : s.start? = ts.head?.map Token.start
  stop : s.stop? = ts.getLast?.map Token.stop

variable {file : Option String} {p q : Position} {s s' : Span} {t : Token} {ts us : List Token}
  {n : Node} {i : Item Node} {text body : List Char}

/-- The span from one token to another covers them and those between. -/
theorem covers_spanBetween (file : Option String) (t : Token) (ts : List Token) (u : Token) :
    Covers (spanBetween file t.start u.stop) (t :: (ts ++ [u])) where
  ne_nil := List.cons_ne_nil _ _
  start := rfl
  stop := by
    rw [← List.cons_append, List.getLast?_concat]
    rfl

/-- The span of a token covers it. -/
theorem covers_token (file : Option String) (t : Token) : Covers (t.span file) [t] where
  ne_nil := List.cons_ne_nil _ _
  start := rfl
  stop := rfl

/-- A span over a first part and a last part of some tokens reaches over them all. -/
theorem Covers.cover (h : Covers s ts) (h' : Covers s' us) {all : List Token}
    (hfirst : all.head? = ts.head?) (hlast : all.getLast? = us.getLast?) :
    Covers (.cover file s s') all where
  ne_nil := by
    rintro rfl
    exact h.ne_nil (List.head?_eq_none_iff.mp hfirst.symm)
  start := by
    rw [hfirst]
    exact h.start
  stop := by
    rw [hlast]
    exact h'.stop

/-- The span of a node covers its tokens. -/
theorem Derives.covers (h : Derives file n ts) : Covers (spanOf n) ts := by
  induction h with
  | name | integer | operator => exact covers_token file _
  | @paren inner ts opening closing => exact covers_spanBetween file opening ts closing
  | @sequence parts first last hfirst hlast _ ih =>
    rw [List.head?_map] at hfirst
    rw [List.getLast?_map] at hlast
    obtain ⟨part, hpart, rfl⟩ := Option.map_eq_some_iff.mp hfirst
    obtain ⟨part', hpart', rfl⟩ := Option.map_eq_some_iff.mp hlast
    -- the span goes from the start of the first part to the end of the last
    have hcovers := ih part (List.mem_of_mem_head? hpart)
    have hcovers' := ih part' (List.mem_of_mem_getLast? hpart')
    refine hcovers.cover hcovers' ?_ ?_
    · obtain ⟨rest, rfl⟩ := List.head?_eq_some_iff.mp hpart
      rw [List.flatMap_cons, List.head?_append_of_ne_nil _ hcovers.ne_nil]
    · obtain ⟨front, rfl⟩ := List.getLast?_eq_some_iff.mp hpart'
      rw [List.flatMap_append, List.flatMap_singleton,
        List.getLast?_append_of_ne_nil _ hcovers'.ne_nil]

/-- The span of a node is of the file that is read, if this has a name. -/
theorem Derives.file_span (h : Derives file n ts) (hfile : file ≠ some "") :
    (spanOf n).file = file := by
  have hname : nonEmptyName file = file := by
    cases file with
    | none => rfl
    | some name => simpa [nonEmptyName] using hfile
  cases h with
  | name | integer | operator => exact hname
  | paren | sequence => rfl

/-- The span of an item covers its tokens. -/
theorem DerivesItem.covers (h : DerivesItem file i ts) : Covers i.span ts := by
  cases h with
  | @statement e ts h =>
    have hcovers := h.covers
    exact ⟨hcovers.ne_nil, hcovers.start, hcovers.stop⟩
  | operator => exact covers_spanBetween file _ [_] _
  | operatorGroup => exact covers_spanBetween file _ [_, _, _] _
  | @group draft ts closing _ h =>
    obtain ⟨first, hfirst, -, hstart⟩ := h.keyword
    obtain ⟨rest, rfl⟩ := List.head?_eq_some_iff.mp hfirst
    have hcovers := covers_spanBetween file first rest closing
    rw [← hstart] at hcovers
    exact hcovers

/-! ## Spans in a text -/

/-- A text has between two places what stands behind the first and in front of the second. -/
theorem cutBetween_of_eq (front back : List Char) (htext : text = front ++ (body ++ back))
    (hp : p = ({} : Position).afterAll front) (hq : q = p.afterAll body) :
    cutBetween text (some p) (some q) = some body := by
  subst htext hp hq
  rw [← Position.afterAll_append]
  exact cutBetween_afterAll front body back

/-- A run of tokens takes up a part of a text that begins with the first token. -/
theorem Stands.exists_part {before after : List Token}
    (h : Stands {} (before ++ (t :: ts ++ after)) body) :
    ∃ front rest back, body = front ++ (t.text.toList ++ rest ++ back) ∧
      t.start = ({} : Position).afterAll front ∧ Stands t.stop ts rest ∧
      t.stop = t.start.afterAll t.text.toList := by
  obtain ⟨front, middle, rfl, -, hmiddle⟩ := h.of_append
  obtain ⟨own, back, rfl, hown, -⟩ := hmiddle.of_append
  cases hown with
  | @cons _ _ _ layout rest _ _ hstart hstop hrest =>
    refine ⟨front ++ layout, rest, back, by simp, ?_, hrest, hstop⟩
    rw [hstart, Position.afterAll_append]

/-- What a text has at a span over some tokens begins with the first token and goes on with the
others. -/
theorem Covers.exists_cut (h : Covers s (t :: ts)) {before after : List Token}
    (hstands : Stands {} (before ++ (t :: ts ++ after)) body) (back : List Char) :
    ∃ rest, Stands t.stop ts rest ∧ cut (body ++ back) s = some (t.text.toList ++ rest) := by
  obtain ⟨front, rest, between, rfl, hstart, hrest, hstop⟩ := hstands.exists_part
  refine ⟨rest, hrest, ?_⟩
  -- the last token ends where the written text of all of them ends
  have hlast : (t :: ts).getLast?.map Token.stop =
      some (t.start.afterAll (t.text.toList ++ rest)) := by
    rw [Position.afterAll_append, ← hstop]
    cases ts with
    | nil =>
      cases hrest
      rfl
    | cons u ts => exact hrest.getLast?_stop (List.cons_ne_nil _ _)
  have htext : front ++ (t.text.toList ++ rest ++ between) ++ back =
      front ++ (t.text.toList ++ rest ++ (between ++ back)) := by
    simp
  rw [cut, h.start, h.stop, hlast]
  exact cutBetween_of_eq front (between ++ back) htext hstart rfl

/-- What a text has at a span over some tokens begins with the first one and ends with the last. -/
theorem Covers.exists_cut_ends {u : Token} (h : Covers s (t :: (ts ++ [u])))
    {before after : List Token}
    (hstands : Stands {} (before ++ (t :: (ts ++ [u]) ++ after)) body) (back : List Char) :
    ∃ own, cut (body ++ back) s = some own ∧ t.text.toList <+: own ∧ u.text.toList <:+ own := by
  obtain ⟨rest, hrest, hcut⟩ := h.exists_cut hstands back
  obtain ⟨front, last, rfl, -, hlast⟩ := hrest.of_append
  obtain ⟨layout, -, rfl⟩ := hlast.of_singleton
  refine ⟨_, hcut, List.prefix_append _ _, ?_⟩
  rw [← List.append_assoc, ← List.append_assoc]
  exact List.suffix_append _ _

/-- What a text has at the span of a token is the text of the token. -/
theorem cut_token {before after : List Token} (hstands : Stands {} (before ++ ([t] ++ after)) body)
    (back : List Char) : cut (body ++ back) (t.span file) = some t.text.toList := by
  obtain ⟨rest, hrest, hcut⟩ := (covers_token file t).exists_cut hstands back
  cases hrest
  rw [hcut, List.append_nil]

/-! ## The order of spans -/

/-- A span over all tokens of a run takes up the whole text of the run but for layout in front. -/
theorem Covers.exists_ends (h : Covers s ts) (hstands : Stands p ts body) :
    ∃ layout own, IsLayout layout ∧ own ≠ [] ∧ body = layout ++ own ∧
      s.start? = some (p.afterAll layout) ∧ s.stop? = some (p.afterAll body) := by
  obtain ⟨layout, own, hlayout, hown, hbody, hstart⟩ := hstands.exists_body h.ne_nil
  refine ⟨layout, own, hlayout, hown, hbody, h.start.trans hstart, ?_⟩
  rw [h.stop, hstands.getLast?_stop h.ne_nil]

section Rows

variable {α : Type} {R : α → List Token → Prop} {f : α → Span} {xs : List α}

/-- Where the entries of a row reach over their tokens, they stand in order and apart from each
other, and none of them in front of the whole. -/
theorem Row.pairwise_before (hcovers : ∀ x own, R x own → Covers (f x) own) (h : Row R xs ts)
    (hstands : Stands p ts body) :
    (xs.map f).Pairwise Span.Before ∧ ∀ x ∈ xs, ∃ start stop,
      (f x).start? = some start ∧ (f x).stop? = some stop ∧ p ≤ start ∧ start < stop := by
  obtain ⟨parts, rfl, rfl, hparts⟩ := h
  induction parts generalizing p body with
  | nil => exact ⟨.nil, List.forall_mem_nil _⟩
  | cons part parts ih =>
    rw [List.forall_mem_cons] at hparts
    obtain ⟨front, back, rfl, hfront, hback⟩ := hstands.of_append
    obtain ⟨hpairwise, hstarts⟩ := ih hparts.2 hback
    obtain ⟨layout, own, -, hown, rfl, hstart, hstop⟩ :=
      (hcovers _ _ hparts.1).exists_ends hfront
    -- each part has text, so it ends behind the place where the others may start
    have hlt : p.afterAll layout < p.afterAll (layout ++ own) := by
      rw [Position.afterAll_append]
      exact Position.lt_afterAll _ hown
    rw [List.map_cons, List.map_cons, List.pairwise_cons, List.forall_mem_cons]
    refine ⟨⟨?_, hpairwise⟩, ⟨_, _, hstart, hstop, p.le_afterAll layout, hlt⟩, fun x hx => ?_⟩
    · intro s' hs'
      obtain ⟨x, hx, rfl⟩ := List.mem_map.mp hs'
      obtain ⟨start', stop', hstart', hstop', hle', hlt'⟩ := hstarts x hx
      exact ⟨_, _, start', stop', hstart, hstop, hstart', hstop', hlt, hle', hlt'⟩
    · obtain ⟨start', stop', hstart', hstop', hle', hlt'⟩ := hstarts x hx
      exact ⟨start', stop', hstart', hstop', Position.le_trans (p.le_afterAll _) hle', hlt'⟩

/-- A row takes up the text of its tokens piece by piece, with layout in front of each piece. -/
theorem Row.exists_pieces (hcovers : ∀ x own, R x own → Covers (f x) own) (h : Row R xs ts)
    (front back : List Char) (hstands : Stands (({} : Position).afterAll front) ts body)
    (htext : text = front ++ (body ++ back)) :
    ∃ pieces : List (List Char × List Char),
      body = pieces.flatMap (fun piece => piece.1 ++ piece.2) ∧
      (xs.map f).map (cut text) = pieces.map (fun piece => some piece.2) ∧
      ∀ piece ∈ pieces, IsLayout piece.1 := by
  obtain ⟨parts, rfl, rfl, hparts⟩ := h
  induction parts generalizing front body with
  | nil =>
    cases hstands
    exact ⟨[], rfl, rfl, List.forall_mem_nil _⟩
  | cons part parts ih =>
    rw [List.forall_mem_cons] at hparts
    obtain ⟨first, others, rfl, hfirst, hothers⟩ := hstands.of_append
    obtain ⟨layout, own, hlayout, -, rfl, hstart, hstop⟩ :=
      (hcovers _ _ hparts.1).exists_ends hfirst
    rw [← Position.afterAll_append] at hothers hstart hstop
    have htext' : text = (front ++ (layout ++ own)) ++ (others ++ back) := by simpa using htext
    obtain ⟨pieces, rfl, hpieces, hlayouts⟩ := ih _ htext' hparts.2 hothers
    refine ⟨(layout, own) :: pieces, by simp, ?_, List.forall_mem_cons.mpr ⟨hlayout, hlayouts⟩⟩
    -- what is cut out for this part is its text without the layout in front of it
    have hcut : cut text (f part.1) = some own := by
      rw [cut, hstart, hstop]
      refine cutBetween_of_eq (front ++ layout)
        (pieces.flatMap (fun piece => piece.1 ++ piece.2) ++ back) (by simpa using htext) rfl ?_
      rw [← Position.afterAll_append, List.append_assoc]
    rw [List.map_cons, List.map_cons, List.map_cons, List.map_cons, hcut, hpieces]

end Rows

/-! ## Nodes and declarations in a text -/

/-- The text of a token is that of its lexeme. -/
theorem toList_of_lexeme {l : Lexeme} (h : t.lexeme = l) : t.text.toList = l.text.toList :=
  congrArg (·.text.toList) h

/-- Parentheses reach from the one that opens to the one that closes. -/
theorem parenthesizes {inner : Span} {opening closing : Token}
    (hopening : opening.lexeme = .mark .openParen) (hclosing : closing.lexeme = .mark .closeParen)
    (hinner : Covers inner ts) {before after : List Token}
    (hstands : Stands {} (before ++ (opening :: (ts ++ [closing]) ++ after)) body)
    (back : List Char) :
    Parenthesizes (body ++ back) (spanBetween file opening.start closing.stop) inner := by
  obtain ⟨front, rest, between, rfl, hstart, hrest, hstop⟩ := hstands.exists_part
  obtain ⟨enclosed, last, rfl, henclosed, hlast⟩ := hrest.of_append
  obtain ⟨layout, inside, hlayout, -, rfl, hinside⟩ := henclosed.exists_body hinner.ne_nil
  have hinsideStop := henclosed.getLast?_stop hinner.ne_nil
  have hopen : opening.text.toList = ['('] := toList_of_lexeme hopening
  have hclose : closing.text.toList = [')'] := toList_of_lexeme hclosing
  cases hlast with
  | @cons _ _ _ layout' _ hlayout' _ hclosingStart hclosingStop hnone =>
    cases hnone
    rw [hopen] at hstop ⊢
    rw [hclose] at hclosingStop ⊢
    -- all four places are told by what stands between them
    have hinsideStart : inner.start? = some (opening.start.afterAll ('(' :: layout)) := by
      rw [hinner.start, hinside, hstop]
      rfl
    have hinsideEnd : inner.stop? =
        some ((opening.start.afterAll ('(' :: layout)).afterAll inside) := by
      rw [hinner.stop, hinsideStop, hstop, Position.afterAll_append]
      rfl
    have hend : closing.stop = ((opening.start.afterAll ('(' :: layout)).afterAll inside).afterAll
        (layout' ++ [')']) := by
      rw [hclosingStop, hclosingStart, hstop, Position.afterAll_append, Position.afterAll_append]
      rfl
    refine ⟨layout, inside, layout', hlayout, hlayout', ?_, ?_, ?_, ?_⟩
    · refine cutBetween_of_eq front (between ++ back) (by simp) hstart ?_
      simp [hend, Position.afterAll_append]
    · rw [cut, hinsideStart, hinsideEnd]
      refine cutBetween_of_eq (front ++ '(' :: layout) (layout' ++ ')' :: (between ++ back))
        (by simp) ?_ rfl
      rw [Position.afterAll_append, hstart]
    · rw [hinsideStart]
      exact cutBetween_of_eq front (inside ++ (layout' ++ ')' :: (between ++ back))) (by simp)
        hstart rfl
    · rw [hinsideEnd]
      refine cutBetween_of_eq (front ++ '(' :: layout ++ inside) (between ++ back) (by simp) ?_ hend
      rw [Position.afterAll_append, Position.afterAll_append, hstart]

/-- A node stands where its span says if it comes from some of the tokens in a text. -/
theorem Derives.placedNode (h : Derives file n ts) {before after : List Token}
    (hstands : Stands {} (before ++ (ts ++ after)) body) (back : List Char) :
    PlacedNode file (body ++ back) n := by
  cases h with
  | name | integer | operator => exact cut_token hstands back
  | paren hopening hclosing h => exact parenthesizes hopening hclosing h.covers hstands back
  | @sequence parts first last hfirst hlast h =>
    obtain ⟨front, own, -, -, hown⟩ := hstands.of_append
    obtain ⟨middle, rest, -, hmiddle, -⟩ := hown.of_append
    have hrow : Row (Derives file) (parts.map Prod.fst) (parts.flatMap Prod.snd) :=
      ⟨parts, rfl, rfl, h⟩
    exact ⟨⟨first, hfirst, rfl⟩, ⟨last, hlast, rfl⟩,
      (hrow.pairwise_before (fun _ _ h => h.covers) hmiddle).1⟩

/-- Every node of a statement stands where its span says. -/
theorem DerivesItem.placedNode {m : Node} (h : DerivesItem file (.node n) ts)
    {before after : List Token} (hstands : Stands {} (before ++ (ts ++ after)) body)
    (back : List Char) (hm : m.Within n) : PlacedNode file (body ++ back) m := by
  generalize hi : Item.node n = i at h
  cases h with
  | @statement e ts h =>
    cases hi
    -- the statement itself, or a node of its expression
    rcases Node.within_iff.mp hm with rfl | ⟨kid, hm, hkid⟩
    · refine ⟨rfl, fun hfile => ?_⟩
      rw [Span.cover, ← h.file_span hfile]
    · cases List.mem_singleton.mp hkid
      obtain ⟨front, own, rest, rfl, hown⟩ := h.exists_of_within hm
      have hstands' : Stands {} ((before ++ front) ++ (own ++ (rest ++ after))) body := by
        simpa using hstands
      exact hown.placedNode hstands' back
  | _ => cases hi

/-- A declaration stands where its span says if it comes from some of the tokens in a text. -/
theorem DerivesItem.placedDeclaration {d : Declaration} (h : DerivesItem file (.declaration d) ts)
    {before after : List Token} (hstands : Stands {} (before ++ (ts ++ after)) body)
    (back : List Char) : PlacedDeclaration (body ++ back) d := by
  have hcovers := h.covers
  generalize hi : Item.declaration d = i at h
  cases h with
  | statement => cases hi
  | @operator f fixity keyword op hfixity =>
    cases hi
    have hcovers : Covers _ (fixity :: ([keyword] ++ [op])) := hcovers
    obtain ⟨own, hcut, hfirst, hlast⟩ := hcovers.exists_cut_ends hstands back
    rw [toList_of_lexeme hfixity] at hfirst
    exact ⟨own, hcut, hfirst, hlast⟩
  | @operatorGroup f fixity keyword op colon group hfixity =>
    cases hi
    have hcovers : Covers _ (fixity :: ([keyword, op, colon] ++ [group])) := hcovers
    obtain ⟨own, hcut, hfirst, hlast⟩ := hcovers.exists_cut_ends hstands back
    rw [toList_of_lexeme hfixity] at hfirst
    exact ⟨own, hcut, hfirst, hlast⟩
  | @group draft ts closing hclosing h =>
    cases hi
    refine ⟨?_, fun r hr => ?_⟩
    · obtain ⟨first, hfirst, hkeyword, -⟩ := h.keyword
      obtain ⟨rest, rfl⟩ := List.head?_eq_some_iff.mp hfirst
      obtain ⟨own, hcut, hfirst, hlast⟩ := hcovers.exists_cut_ends hstands back
      rw [toList_of_lexeme hkeyword] at hfirst
      rw [toList_of_lexeme hclosing] at hlast
      exact ⟨own, hcut, hfirst, hlast⟩
    · obtain ⟨t, ht, htarget, hspan⟩ := h.relations r (List.mem_reverse.mp hr)
      obtain ⟨front, rest, rfl⟩ := List.append_of_mem ht
      have hstands' :
          Stands {} ((before ++ front) ++ ([t] ++ (rest ++ [closing] ++ after))) body := by
        simpa using hstands
      rw [hspan, htarget]
      exact cut_token hstands' back

/-- **Spans are accurate.** In a text that is read, every node of a statement and every declaration
stands where its span says. The items stand in order and apart from each other, and nothing but
layout stands outside of them. -/
theorem parseSource_spans {s : String} {source : SourceFile}
    (h : parseSource s file = .ok source) :
    (∀ n ∈ source.statements, ∀ m : Node, m.Within n → PlacedNode file s.toList m) ∧
      (∀ d ∈ source.declarations, PlacedDeclaration s.toList d) ∧
      (source.items.map Item.span).Pairwise Span.Before ∧
      LayoutOutside s.toList (source.items.map Item.span) := by
  have hrow := row_tokens h
  have hcovers (i : Item Node) (own : List Token) (h : DerivesItem file i own) :
      Covers i.span own :=
    h.covers
  obtain ⟨items, hitems, -⟩ := exists_of_bind_eq_ok h
  obtain ⟨body, back, htext, hstands, hback⟩ := exists_stands hitems
  have htext : s.toList = body ++ back := htext
  have hstands : Stands {} (tokens s file) body := hstands
  rw [htext]
  refine ⟨fun n hn m hm => ?_, fun d hd => ?_, (hrow.pairwise_before hcovers hstands).1, ?_⟩
  · obtain ⟨i, hi, hnode⟩ := List.mem_filterMap.mp hn
    cases i with
    | declaration => cases hnode
    | node =>
      cases hnode
      obtain ⟨before, own, after, htokens, hown⟩ := hrow.exists_of_mem hi
      exact hown.placedNode (htokens ▸ hstands) back hm
  · obtain ⟨i, hi, hdeclaration⟩ := List.mem_filterMap.mp hd
    cases i with
    | node => cases hdeclaration
    | declaration =>
      cases hdeclaration
      obtain ⟨before, own, after, htokens, hown⟩ := hrow.exists_of_mem hi
      exact hown.placedDeclaration (htokens ▸ hstands) back
  · obtain ⟨pieces, rfl, hpieces, hlayouts⟩ :=
      hrow.exists_pieces hcovers [] back hstands rfl
    exact ⟨pieces, back, rfl, hpieces, hlayouts, hback⟩

/-- A group with a brace in a comment, an operator, and parentheses over two lines that end in
carriage returns. -/
def scatteredItems : String :=
  "precedencegroup P \x7b // \x7d\r\n\thigherThan: Q, R\x7d infix operator +: P\n" ++
    "(( a\r\n + 0x1F)) + b"

/-- The three items are cut out by their spans, and only layout is left between them. -/
theorem parseSource_spans_scattered :
    ∃ source, parseSource scatteredItems none = .ok source ∧ source.items.length = 3 ∧
      (∀ n ∈ source.statements, ∀ m : Node, m.Within n →
        PlacedNode none scatteredItems.toList m) ∧
      (∀ d ∈ source.declarations, PlacedDeclaration scatteredItems.toList d) ∧
      (source.items.map Item.span).Pairwise Span.Before ∧
      LayoutOutside scatteredItems.toList (source.items.map Item.span) := by
  have hread : (parseSource scatteredItems none).toOption.map (·.items.length) = some 3 := by
    decide +kernel
  cases hparse : parseSource scatteredItems none with
  | error e => simp [hparse, Except.toOption] at hread
  | ok source =>
    rw [hparse] at hread
    exact ⟨source, rfl, Option.some.inj hread, parseSource_spans hparse⟩

end Source

end OperatorFold
