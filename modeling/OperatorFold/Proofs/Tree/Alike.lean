import Mathlib.Data.List.Forall2
import OperatorFold.Proofs.Tree.Within

/-! # Trees of the same structure

`Node.alike` compares trees that were built apart from each other. It is symmetric and transitive,
but not reflexive: a bare node is like no other, and so no tree with a bare node in it is like any.
Trees that are alike have as many children, each like the one in its place. So every part of one has
a part like it in the other, and a sequence is left in one exactly if one is left in the other.
-/

namespace OperatorFold

/-! ## Declarations -/

/-- Like groups have the same data, spans aside. -/
theorem PrecedenceGroup.alike_iff {g h : PrecedenceGroup} :
    g.alike h = true ↔ g.name = h.name ∧ g.associativity = h.associativity ∧
      g.assignment = h.assignment ∧
      g.relations.map (fun r => (r.kind, r.target)) =
        h.relations.map (fun r => (r.kind, r.target)) := by
  simp only [PrecedenceGroup.alike, Bool.and_eq_true, beq_iff_eq, and_assoc]

/-- Like operators have the same data, spans aside. -/
theorem Operator.alike_iff {a b : Operator} :
    a.alike b = true ↔ a.name = b.name ∧ a.fixity = b.fixity ∧ a.groupName = b.groupName := by
  simp only [Operator.alike, Bool.and_eq_true, beq_iff_eq, and_assoc]

namespace Declaration

variable {a b c : Declaration}

/-- To be alike goes both ways, for declarations. -/
theorem alike_symm (h : a.alike b = true) : b.alike a = true := by
  cases a with
  | group g =>
    cases b with
    | group g' =>
      obtain ⟨hname, hassoc, hassign, hrelations⟩ := PrecedenceGroup.alike_iff.mp h
      exact PrecedenceGroup.alike_iff.mpr
        ⟨hname.symm, hassoc.symm, hassign.symm, hrelations.symm⟩
    | operator => cases h
  | operator op =>
    cases b with
    | group => cases h
    | operator op' =>
      obtain ⟨hname, hfixity, hgroup⟩ := Operator.alike_iff.mp h
      exact Operator.alike_iff.mpr ⟨hname.symm, hfixity.symm, hgroup.symm⟩

/-- What is like a like thing is like it, for declarations. -/
theorem alike_trans (h : a.alike b = true) (h' : b.alike c = true) : a.alike c = true := by
  cases b with
  | group g =>
    cases a with
    | operator => cases h
    | group ga =>
      cases c with
      | operator => cases h'
      | group gc =>
        obtain ⟨hname, hassoc, hassign, hrelations⟩ := PrecedenceGroup.alike_iff.mp h
        obtain ⟨hname', hassoc', hassign', hrelations'⟩ := PrecedenceGroup.alike_iff.mp h'
        exact PrecedenceGroup.alike_iff.mpr ⟨hname.trans hname', hassoc.trans hassoc',
          hassign.trans hassign', hrelations.trans hrelations'⟩
  | operator op =>
    cases a with
    | group => cases h
    | operator opa =>
      cases c with
      | group => cases h'
      | operator opc =>
        obtain ⟨hname, hfixity, hgroup⟩ := Operator.alike_iff.mp h
        obtain ⟨hname', hfixity', hgroup'⟩ := Operator.alike_iff.mp h'
        exact Operator.alike_iff.mpr
          ⟨hname.trans hname', hfixity.trans hfixity', hgroup.trans hgroup'⟩

end Declaration

/-! ## Trees -/

namespace Node

mutual

/-- Structural equality is symmetric. -/
theorem alike_symm {m n : Node} (h : m.alike n = true) : n.alike m = true := by
  cases m <;> cases n <;> simp only [alike, Bool.and_eq_true, beq_iff_eq, Bool.false_eq_true] at h ⊢
  case name.name => exact h.symm
  case integer.integer => exact h.symm
  case operator.operator => exact h.symm
  case paren.paren => exact alike_symm h
  case sequence.sequence => exact alikeAll_symm h
  case binary.binary => exact ⟨⟨alike_symm h.1.1, alike_symm h.1.2⟩, alike_symm h.2⟩
  case statement.statement => exact alike_symm h
  case sourceFile.sourceFile => exact ⟨alikeItems_symm h.1, h.2.symm⟩

theorem alikeAll_symm {ms ns : List Node} (h : alikeAll ms ns = true) :
    alikeAll ns ms = true := by
  cases ms with
  | nil =>
    cases ns with
    | nil => exact h
    | cons => simp [alikeAll] at h
  | cons m ms =>
    cases ns with
    | nil => simp [alikeAll] at h
    | cons n ns =>
      simp only [alikeAll, Bool.and_eq_true] at h ⊢
      exact ⟨alike_symm h.1, alikeAll_symm h.2⟩

theorem alikeItem_symm {i j : Item Node} (h : alikeItem i j = true) : alikeItem j i = true := by
  cases i <;> cases j <;> simp only [alikeItem, Bool.false_eq_true] at h ⊢
  case declaration.declaration => exact Declaration.alike_symm h
  case node.node => exact alike_symm h

theorem alikeItems_symm {is js : List (Item Node)} (h : alikeItems is js = true) :
    alikeItems js is = true := by
  cases is with
  | nil =>
    cases js with
    | nil => exact h
    | cons => simp [alikeItems] at h
  | cons i is =>
    cases js with
    | nil => simp [alikeItems] at h
    | cons j js =>
      simp only [alikeItems, Bool.and_eq_true] at h ⊢
      exact ⟨alikeItem_symm h.1, alikeItems_symm h.2⟩

end

mutual

/-- Structural equality is transitive. -/
theorem alike_trans {l m n : Node} (h : l.alike m = true) (h' : m.alike n = true) :
    l.alike n = true := by
  cases m <;> cases l <;>
    simp only [alike, Bool.and_eq_true, beq_iff_eq, Bool.false_eq_true] at h <;>
    cases n <;>
    simp only [alike, Bool.and_eq_true, beq_iff_eq, Bool.false_eq_true] at h' ⊢
  case name.name.name => exact h.trans h'
  case integer.integer.integer => exact h.trans h'
  case operator.operator.operator => exact h.trans h'
  case paren.paren.paren => exact alike_trans h h'
  case sequence.sequence.sequence => exact alikeAll_trans h h'
  case binary.binary.binary =>
    exact ⟨⟨alike_trans h.1.1 h'.1.1, alike_trans h.1.2 h'.1.2⟩, alike_trans h.2 h'.2⟩
  case statement.statement.statement => exact alike_trans h h'
  case sourceFile.sourceFile.sourceFile => exact ⟨alikeItems_trans h.1 h'.1, h.2.trans h'.2⟩

theorem alikeAll_trans {ls ms ns : List Node} (h : alikeAll ls ms = true)
    (h' : alikeAll ms ns = true) : alikeAll ls ns = true := by
  cases ms with
  | nil =>
    cases ls with
    | nil => exact h'
    | cons => simp [alikeAll] at h
  | cons m ms =>
    cases ls with
    | nil => simp [alikeAll] at h
    | cons l ls =>
      cases ns with
      | nil => simp [alikeAll] at h'
      | cons n ns =>
        simp only [alikeAll, Bool.and_eq_true] at h h' ⊢
        exact ⟨alike_trans h.1 h'.1, alikeAll_trans h.2 h'.2⟩

theorem alikeItem_trans {i j k : Item Node} (h : alikeItem i j = true)
    (h' : alikeItem j k = true) : alikeItem i k = true := by
  cases j <;> cases i <;> simp only [alikeItem, Bool.false_eq_true] at h <;> cases k <;>
    simp only [alikeItem, Bool.false_eq_true] at h' ⊢
  case declaration.declaration.declaration => exact Declaration.alike_trans h h'
  case node.node.node => exact alike_trans h h'

theorem alikeItems_trans {is js ks : List (Item Node)} (h : alikeItems is js = true)
    (h' : alikeItems js ks = true) : alikeItems is ks = true := by
  cases js with
  | nil =>
    cases is with
    | nil => exact h'
    | cons => simp [alikeItems] at h
  | cons j js =>
    cases is with
    | nil => simp [alikeItems] at h
    | cons i is =>
      cases ks with
      | nil => simp [alikeItems] at h'
      | cons k ks =>
        simp only [alikeItems, Bool.and_eq_true] at h h' ⊢
        exact ⟨alikeItem_trans h.1 h'.1, alikeItems_trans h.2 h'.2⟩

end

/-! ## Lists of trees -/

/-- Lists of nodes are alike if their entries are, one by one. -/
theorem alikeAll_iff_forall₂ {ms ns : List Node} :
    alikeAll ms ns = true ↔ List.Forall₂ (fun m n => m.alike n = true) ms ns := by
  induction ms generalizing ns with
  | nil => cases ns <;> simp [alikeAll]
  | cons m ms ih => cases ns <;> simp [alikeAll, ih]

theorem alikeItems_iff_forall₂ {is js : List (Item Node)} :
    alikeItems is js = true ↔ List.Forall₂ (fun i j => alikeItem i j = true) is js := by
  induction is generalizing js with
  | nil => cases js <;> simp [alikeItems]
  | cons i is ih => cases js <;> simp [alikeItems, ih]

/-- Like lists of nodes are alike from the back. -/
theorem alikeAll_reverse {ms ns : List Node} (h : alikeAll ms ns = true) :
    alikeAll ms.reverse ns.reverse = true := by
  rw [alikeAll_iff_forall₂] at h ⊢
  exact List.rel_reverse h

theorem alikeItems_reverse {is js : List (Item Node)} (h : alikeItems is js = true) :
    alikeItems is.reverse js.reverse = true := by
  rw [alikeItems_iff_forall₂] at h ⊢
  exact List.rel_reverse h

/-! ## Children -/

/-- Like items have like nodes among them. -/
theorem alikeAll_filterMap {is js : List (Item Node)} (h : alikeItems is js = true) :
    alikeAll (is.filterMap Item.node?) (js.filterMap Item.node?) = true := by
  induction is generalizing js with
  | nil =>
    cases js with
    | nil => simp [alikeAll]
    | cons => simp [alikeItems] at h
  | cons i is ih =>
    cases js with
    | nil => simp [alikeItems] at h
    | cons j js =>
      rw [alikeItems, Bool.and_eq_true] at h
      have hrest := ih h.2
      cases i <;> cases j <;> simp only [alikeItem, Bool.false_eq_true, false_and] at h
      case declaration.declaration => exact hrest
      case node.node =>
        simp only [List.filterMap_cons, Item.node?, alikeAll, Bool.and_eq_true]
        exact ⟨h.1, hrest⟩

/-- Trees that are alike are of one kind, and their children are alike one by one. -/
theorem alikeAll_children {m n : Node} (h : m.alike n = true) :
    m.isSequence = n.isSequence ∧ alikeAll m.children n.children = true := by
  cases m <;> cases n <;> simp only [alike, Bool.and_eq_true, Bool.false_eq_true] at h <;>
    refine ⟨rfl, ?_⟩
  case paren.paren | statement.statement => simpa [children, alikeAll] using h
  case sequence.sequence => exact h
  case binary.binary => simpa [children, alikeAll, and_assoc] using h
  case sourceFile.sourceFile => exact alikeAll_filterMap h.1
  all_goals simp [children, alikeAll]

/-- A node among some others has its like among like ones. -/
theorem exists_alike_of_mem {ms ns : List Node} {m : Node} (h : alikeAll ms ns = true)
    (hm : m ∈ ms) : ∃ n ∈ ns, m.alike n = true := by
  induction ms generalizing ns with
  | nil => cases hm
  | cons first ms ih =>
    cases ns with
    | nil => simp [alikeAll] at h
    | cons n ns =>
      rw [alikeAll, Bool.and_eq_true] at h
      rcases List.mem_cons.mp hm with rfl | hm
      · exact ⟨n, List.mem_cons_self, h.1⟩
      · obtain ⟨n', hn', halike⟩ := ih h.2 hm
        exact ⟨n', List.mem_cons_of_mem _ hn', halike⟩

/-- Every part of a tree has one like it in a tree like the whole. -/
theorem Within.exists_alike {l m n : Node} (h : l.Within m) (halike : m.alike n = true) :
    ∃ l' : Node, l'.Within n ∧ l.alike l' = true := by
  induction h generalizing n with
  | refl => exact ⟨n, n.within_self, halike⟩
  | tail _ hkid ih =>
    obtain ⟨kid', hkid', hlike⟩ := exists_alike_of_mem (alikeAll_children halike).2 hkid
    obtain ⟨l', hwithin, hl⟩ := ih hlike
    exact ⟨l', hwithin.of_child hkid', hl⟩

/-- A sequence stands in a tree exactly if one stands in a tree like it. -/
theorem containsSequence_of_alike {m n : Node} (h : m.alike n = true) :
    m.containsSequence = n.containsSequence := by
  have hfound {m n : Node} (h : m.alike n = true) (hm : m.containsSequence = true) :
      n.containsSequence = true := by
    obtain ⟨s, hs, hseq⟩ := (containsSequence_iff m).mp hm
    obtain ⟨s', hs', hlike⟩ := hs.exists_alike h
    exact (containsSequence_iff n).mpr ⟨s', hs', (alikeAll_children hlike).1 ▸ hseq⟩
  exact Bool.eq_iff_iff.mpr ⟨hfound h, hfound (alike_symm h)⟩

end Node

end OperatorFold
