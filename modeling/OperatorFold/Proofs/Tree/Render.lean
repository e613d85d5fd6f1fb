import OperatorFold.Proofs.Reporting
import OperatorFold.Proofs.Tree.Within
import OperatorFold.Tree.Render

/-! # Trees with a source form

The text of some nodes in a row is made of their texts. A node has a text only if all of its
children have one. Bare nodes have none, so a tree with a text has no bare operand in it, and is
well formed if its sequences alternate.
-/

namespace OperatorFold.Node

variable {n kid : Node} {nodes others : List Node} {text : String} {texts : List String}

/-- Nodes have texts if the first one has a text and the others have theirs. -/
theorem renderAll_cons_eq_ok :
    renderAll (n :: nodes) = .ok texts ↔
      ∃ text rest, n.render = .ok text ∧ renderAll nodes = .ok rest ∧ texts = text :: rest := by
  rw [renderAll]
  constructor
  · intro h
    obtain ⟨text, hn, h⟩ := exists_of_bind_eq_ok h
    obtain ⟨rest, hrest, h⟩ := exists_of_bind_eq_ok h
    cases h
    exact ⟨text, rest, hn, hrest, rfl⟩
  · rintro ⟨text, rest, hn, hrest, rfl⟩
    rw [hn, hrest]
    rfl

/-- Where nodes in a row have texts, each part of the row has its own. -/
theorem exists_of_renderAll_append (h : renderAll (nodes ++ others) = .ok texts) :
    ∃ first second, renderAll nodes = .ok first ∧ renderAll others = .ok second ∧
      texts = first ++ second := by
  induction nodes generalizing texts with
  | nil => exact ⟨[], texts, rfl, h, rfl⟩
  | cons n nodes ih =>
    obtain ⟨text, rest, hn, hrest, rfl⟩ := renderAll_cons_eq_ok.mp h
    obtain ⟨first, second, hfirst, hsecond, rfl⟩ := ih hrest
    exact ⟨text :: first, second, renderAll_cons_eq_ok.mpr ⟨text, first, hn, hfirst, rfl⟩, hsecond,
      rfl⟩

theorem ne_nil_of_renderAll (h : renderAll (n :: nodes) = .ok texts) : texts ≠ [] := by
  obtain ⟨text, rest, -, -, rfl⟩ := renderAll_cons_eq_ok.mp h
  exact List.cons_ne_nil _ _

/-- If some nodes have texts, each of them has one. -/
theorem exists_render_of_mem (h : renderAll nodes = .ok texts) (hn : n ∈ nodes) :
    ∃ text, n.render = .ok text := by
  induction nodes generalizing texts with
  | nil => cases hn
  | cons first nodes ih =>
    obtain ⟨text, rest, hfirst, hrest, -⟩ := renderAll_cons_eq_ok.mp h
    rcases List.mem_cons.mp hn with rfl | hn
    · exact ⟨text, hfirst⟩
    · exact ih hrest hn

/-- The text of parentheses is the text inside, in parentheses. -/
theorem of_render_paren {inner : Node} {span : Span} (h : (paren inner span).render = .ok text) :
    ∃ inside, inner.render = .ok inside ∧ text = s!"({inside})" := by
  rw [render] at h
  obtain ⟨inside, hinner, h⟩ := exists_of_bind_eq_ok h
  cases h
  exact ⟨inside, hinner, rfl⟩

/-- The text of a sequence is made of the texts of its elements, with spaces between them. -/
theorem of_render_sequence {elements : List Node} {span : Span}
    (h : (sequence elements span).render = .ok text) :
    ∃ texts, renderAll elements = .ok texts ∧ text = " ".intercalate texts := by
  rw [render] at h
  obtain ⟨texts, helements, h⟩ := exists_of_bind_eq_ok h
  cases h
  exact ⟨texts, helements, rfl⟩

/-- Only an operator has the name of one. -/
theorem operatorName_eq_ok {op : Node} {ident : String} (h : op.operatorName = .ok ident) :
    ∃ use, op = .operator use ∧ use.name = ident := by
  cases op with
  | operator use =>
    cases h
    exact ⟨use, rfl, rfl⟩
  | _ => cases h

/-- The text of an operation is made of the texts of its parts and the name of its operator. -/
theorem of_render_binary {left op right : Node} {span : Span}
    (h : (binary left op right span).render = .ok text) :
    ∃ use l r, op = .operator use ∧ left.render = .ok l ∧ right.render = .ok r ∧
      text = s!"{l} {use.name} {r}" := by
  rw [render] at h
  obtain ⟨l, hleft, h⟩ := exists_of_bind_eq_ok h
  obtain ⟨o, hop, h⟩ := exists_of_bind_eq_ok h
  obtain ⟨r, hright, h⟩ := exists_of_bind_eq_ok h
  obtain ⟨use, rfl, rfl⟩ := operatorName_eq_ok hop
  cases h
  exact ⟨use, l, r, rfl, hleft, hright, rfl⟩

/-- All children of a node with a text have one. -/
theorem exists_render_of_mem_children (h : n.render = .ok text) (hkid : kid ∈ n.children) :
    ∃ text, kid.render = .ok text := by
  cases n with
  | paren inner span =>
    obtain ⟨inside, hinner, -⟩ := of_render_paren h
    rw [List.mem_singleton.mp hkid]
    exact ⟨inside, hinner⟩
  | sequence elements span =>
    obtain ⟨texts, helements, -⟩ := of_render_sequence h
    exact exists_render_of_mem helements hkid
  | binary left op right span =>
    obtain ⟨use, l, r, rfl, hleft, hright, -⟩ := of_render_binary h
    rcases List.mem_cons.mp hkid with rfl | hkid
    · exact ⟨l, hleft⟩
    · rcases List.mem_cons.mp hkid with rfl | hkid
      · exact ⟨use.name, rfl⟩
      · rw [List.mem_singleton.mp hkid]
        exact ⟨r, hright⟩
  | statement expr span =>
    rw [List.mem_singleton.mp hkid]
    exact ⟨text, h⟩
  | sourceFile items file span => cases h
  | _ => cases hkid

/-- A tree with a text is well formed if its sequences alternate. -/
theorem wellFormed_of_render (h : n.render = .ok text) (halternates : n.Alternates) :
    n.WellFormed := by
  induction n using children_induction generalizing text with
  | step n ih =>
    refine wellFormed_iff.mpr ⟨?_, fun kid hkid => ?_⟩
    · rintro elements span rfl
      refine ⟨halternates elements span (within_self _), fun hbare => ?_⟩
      obtain ⟨bareText, hnone⟩ := exists_render_of_mem_children h hbare
      cases hnone
    · obtain ⟨kidText, hrender⟩ := exists_render_of_mem_children h hkid
      exact ih kid hkid hrender fun elements span hwithin =>
        halternates elements span (hwithin.of_child hkid)

end OperatorFold.Node
