import Mathlib.Data.List.Basic
import OperatorFold.Tree.Children

/-! # The children of a node as a lens

A node is its children and the rest of it, its *shell*: its kind, its own data, and the places in
which the children stand. `Node.children` reads the children, and `Node.replaceChildren` puts others
in their place. It draws these one after another; `run_redraw` says which of them are drawn, and
what for, so that they may be counted first (`replaceChildren_of_ne_bare`). What comes of it has
these for its children and the shell of the node (`of_withChildren`). Nothing but the shell matters
to the nodes that are put in (`put_congr`), so a second replacement undoes the first one.

A replacement also knows which of the nodes are the very children that were there before. This
decides whether the result is the node itself, but not what the result looks like
(`map_replaceChildren`).
-/

namespace OperatorFold.Node

variable {m n : Node} {nodes : List Node} {kids : List Substitute}

/-! ## Elements in turn -/

/-- Operands and operators stand in turn, with an operand at either end. -/
def InTurn (elements : List Node) : Prop :=
  elements.length % 2 = 1 ∧
    ∀ i (hi : i < elements.length), elements[i].isOperator = true ↔ i % 2 = 1

/-- From a position on, no element is misplaced if operators are those at odd positions. -/
theorem misplacedFrom_eq_none_iff {index : Nat} {elements : List Node} :
    misplacedFrom index elements = none ↔
      ∀ i (hi : i < elements.length), elements[i].isOperator = true ↔ (index + i) % 2 = 1 := by
  induction elements generalizing index with
  | nil => simp [misplacedFrom]
  | cons e rest ih =>
    -- the first element is in place, and the others are from the next position on
    have hsplit : (∀ i (hi : i < (e :: rest).length),
        (e :: rest)[i].isOperator = true ↔ (index + i) % 2 = 1) ↔
          (e.isOperator = true ↔ index % 2 = 1) ∧
            ∀ i (hi : i < rest.length), rest[i].isOperator = true ↔ (index + 1 + i) % 2 = 1 := by
      constructor
      · intro h
        refine ⟨h 0 (Nat.zero_lt_succ _), fun i hi => ?_⟩
        rw [Nat.add_right_comm, Nat.add_assoc]
        exact h (i + 1) (Nat.succ_lt_succ hi)
      · rintro ⟨hfirst, hrest⟩ i hi
        cases i with
        | zero => exact hfirst
        | succ i =>
          rw [← Nat.add_assoc, Nat.add_right_comm]
          exact hrest i (Nat.lt_of_succ_lt_succ hi)
    rw [hsplit, ← ih, misplacedFrom]
    cases e.isOperator <;> rcases Nat.mod_two_eq_zero_or_one index with h | h <;> simp [h]

/-- The elements of a sequence are those in turn. -/
theorem sequenceFault_eq_none_iff {elements : List Node} :
    sequenceFault elements = none ↔ InTurn elements := by
  have hplaces : misplacedFrom 0 elements = none ↔
      ∀ i (hi : i < elements.length), elements[i].isOperator = true ↔ i % 2 = 1 := by
    rw [misplacedFrom_eq_none_iff]
    simp only [Nat.zero_add]
  rw [InTurn, sequenceFault, ← hplaces]
  rcases Nat.mod_two_eq_zero_or_one elements.length with h | h <;> simp [h]

/-! ## The entries of a file -/

/-- The items with their nodes replaced in order; declarations stay where they are. -/
def refill : List (Item Node) → List Node → List (Item Node)
  | [], _ => []
  | .declaration d :: items, nodes => .declaration d :: refill items nodes
  | .node _ :: items, n :: nodes => .node n :: refill items nodes
  | .node n :: items, [] => .node n :: refill items []

/-- Items refilled with their own nodes are as before. -/
theorem refill_filterMap (items : List (Item Node)) :
    refill items (items.filterMap Item.node?) = items := by
  induction items with
  | nil => rfl
  | cons item rest ih =>
    cases item with
    | declaration d => exact congrArg (Item.declaration d :: ·) ih
    | node n => exact congrArg (Item.node n :: ·) ih

/-- As many nodes as there are among the items are the nodes of the items refilled with them. -/
theorem filterMap_refill {items : List (Item Node)} {nodes : List Node}
    (h : nodes.length = (items.filterMap Item.node?).length) :
    (refill items nodes).filterMap Item.node? = nodes := by
  induction items generalizing nodes with
  | nil => exact (List.length_eq_zero_iff.mp h).symm
  | cons item rest ih =>
    cases item with
    | declaration d => exact ih h
    | node n =>
      cases nodes with
      | nil => cases h
      | cons m nodes => exact congrArg (m :: ·) (ih (Nat.succ_inj.mp h))

/-- An entry of a file without its node: a declaration as it is, or the place of a node. -/
def itemShell : Item Node → Item Node
  | .declaration d => .declaration d
  | .node _ => .node bare

/-- Refilled items are declarations where declarations were, and the same ones. -/
theorem map_itemShell_refill (items : List (Item Node)) (nodes : List Node) :
    (refill items nodes).map itemShell = items.map itemShell := by
  induction items generalizing nodes with
  | nil => rfl
  | cons item rest ih =>
    cases item with
    | declaration d => exact congrArg (Item.declaration d :: ·) (ih nodes)
    | node n =>
      cases nodes with
      | nil => exact congrArg (Item.node bare :: ·) (ih [])
      | cons m nodes => exact congrArg (Item.node bare :: ·) (ih nodes)

/-- It does not matter which nodes enough others are put in for. -/
theorem refill_map_itemShell {items : List (Item Node)} {nodes : List Node}
    (h : nodes.length = (items.filterMap Item.node?).length) :
    refill (items.map itemShell) nodes = refill items nodes := by
  induction items generalizing nodes with
  | nil => rfl
  | cons item rest ih =>
    cases item with
    | declaration d => exact congrArg (Item.declaration d :: ·) (ih h)
    | node n =>
      cases nodes with
      | nil => cases h
      | cons m nodes => exact congrArg (Item.node m :: ·) (ih (Nat.succ_inj.mp h))

/-- Items without their nodes keep the places of the nodes. -/
theorem length_filterMap_map_itemShell (items : List (Item Node)) :
    ((items.map itemShell).filterMap Item.node?).length =
      (items.filterMap Item.node?).length := by
  induction items with
  | nil => rfl
  | cons item rest ih =>
    cases item with
    | declaration d => exact ih
    | node n => exact congrArg (· + 1) ih

/-! ## Shells -/

/-- A node without its children: bare nodes stand in their places, and all else is as it was. -/
def shell : Node → Node
  | paren _ s => paren bare s
  | sequence elements s => sequence (elements.map fun _ => bare) s
  | binary _ _ _ s => binary bare bare bare s
  | statement _ s => statement bare s
  | sourceFile items file s => sourceFile (items.map itemShell) file s
  | n => n

@[simp] theorem kindName_shell (n : Node) : n.shell.kindName = n.kindName := by
  cases n <;> rfl

@[simp] theorem isSequence_shell (n : Node) : n.shell.isSequence = n.isSequence := by
  cases n <;> rfl

/-- A shell has as many places for children as the node has children. -/
@[simp] theorem length_children_shell (n : Node) :
    n.shell.children.length = n.children.length := by
  cases n with
  | sequence elements s => exact List.length_map _
  | sourceFile items file s => exact length_filterMap_map_itemShell items
  | _ => rfl

theorem eq_bare_of_shell (h : n.shell = bare) : n = bare := by
  cases n <;> first | rfl | cases h

/-! ## A node over other children -/

/-- The node over other children; a sequence must still alternate. -/
def withChildren (n : Node) (kids : List Node) : Except Fault Node :=
  match n, kids with
  | paren _ s, [inner] => .ok (paren inner s)
  | sequence _ s, elements => (sequence? elements s).mapError .sequence
  | binary _ _ _ s, [left, op, right] => .ok (binary left op right s)
  | statement _ s, [expr] => .ok (statement expr s)
  | sourceFile items file s, kids => .ok (sourceFile (refill items kids) file s)
  | n, _ => .ok n

/-- A node other than a sequence is the node over its own children. -/
theorem withChildren_children (h : n.isSequence = false) : n.withChildren n.children = .ok n := by
  cases n with
  | sequence elements span => cases h
  | sourceFile items file span => rw [children, withChildren, refill_filterMap]
  | _ => rfl

/-- Only a sequence refuses children. -/
theorem exists_withChildren (hseq : n.isSequence = false) (nodes : List Node) :
    ∃ m, n.withChildren nodes = .ok m := by
  unfold withChildren
  split
  · exact ⟨_, rfl⟩
  · cases hseq
  · exact ⟨_, rfl⟩
  · exact ⟨_, rfl⟩
  · exact ⟨_, rfl⟩
  · exact ⟨_, rfl⟩

/-- A sequence takes elements in turn and refuses all others. -/
theorem withChildren_sequence (elements nodes : List Node) (span : Span) :
    (sequence elements span).withChildren nodes = match sequenceFault nodes with
      | some e => .error (.sequence e)
      | none => .ok (sequence nodes span) := by
  rw [withChildren, sequence?]
  cases sequenceFault nodes <;> rfl

/-- A node over as many other children has these for its children, and all else is as it was. -/
theorem of_withChildren (hlength : nodes.length = n.children.length)
    (h : n.withChildren nodes = .ok m) : m.children = nodes ∧ m.shell = n.shell := by
  cases n with
  | sequence elements span =>
    rw [withChildren_sequence] at h
    split at h
    · cases h
    · cases h
      -- a shell keeps only how many elements there are
      have hplaces : nodes.map (fun _ => bare) = elements.map fun _ => bare := by
        rw [List.map_const', List.map_const']
        exact congrArg (List.replicate · bare) hlength
      exact ⟨rfl, congrArg (sequence · span) hplaces⟩
  | sourceFile items file span =>
    cases h
    exact ⟨filterMap_refill hlength,
      congrArg (sourceFile · file span) (map_itemShell_refill items nodes)⟩
  | paren inner span =>
    obtain ⟨kid, rfl⟩ := List.length_eq_one_iff.mp hlength
    cases h
    exact ⟨rfl, rfl⟩
  | statement expr span =>
    obtain ⟨kid, rfl⟩ := List.length_eq_one_iff.mp hlength
    cases h
    exact ⟨rfl, rfl⟩
  | binary left op right span =>
    obtain ⟨l, o, t, rfl⟩ := List.length_eq_three.mp hlength
    cases h
    exact ⟨rfl, rfl⟩
  | _ =>
    cases h
    exact ⟨(List.length_eq_zero_iff.mp hlength).symm, rfl⟩

/-- Other children do not make a sequence of a node that is none. -/
theorem isSequence_of_withChildren (hseq : n.isSequence = false)
    (h : n.withChildren nodes = .ok m) : m.isSequence = false := by
  unfold withChildren at h
  split at h
  · cases h; rfl
  · cases hseq
  · cases h; rfl
  · cases h; rfl
  · cases h; rfl
  · cases h; exact hseq

/-- The nodes that are put in do not depend on those whose places they take. -/
theorem withChildren_shell (hlength : nodes.length = n.children.length) :
    n.shell.withChildren nodes = n.withChildren nodes := by
  cases n with
  | sourceFile items file span =>
    exact congrArg (fun items => Except.ok (sourceFile items file span))
      (refill_map_itemShell hlength)
  | paren inner span | statement expr span =>
    obtain ⟨kid, rfl⟩ := List.length_eq_one_iff.mp hlength
    rfl
  | binary left op right span =>
    obtain ⟨l, o, t, rfl⟩ := List.length_eq_three.mp hlength
    rfl
  | _ => rfl

/-- What comes of nodes in the place of the children, whoever they are. -/
def put (n : Node) (nodes : List Node) : Except Fault Node :=
  if nodes.length < n.children.length then .error .tooFewChildren
  else if n.children.length < nodes.length then .error (.tooManyChildren n.kindName)
  else n.withChildren nodes

/-- A node over its own children is this node, if it could be built at all. -/
theorem withChildren_own (hturn : n.isSequence = true → InTurn n.children) :
    n.withChildren n.children = .ok n := by
  cases hseq : n.isSequence with
  | false => exact withChildren_children hseq
  | true =>
    cases n with
    | sequence elements span =>
      have hnone : sequenceFault elements = none := sequenceFault_eq_none_iff.mpr (hturn rfl)
      rw [children, withChildren_sequence, hnone]
    | _ => cases hseq

/-- Only the shell of a node decides what comes of nodes in the place of its children. -/
theorem put_congr (h : m.shell = n.shell) (nodes : List Node) : m.put nodes = n.put nodes := by
  have hlength : m.children.length = n.children.length := by
    rw [← length_children_shell m, h, length_children_shell]
  have hkind : m.kindName = n.kindName := by rw [← kindName_shell m, h, kindName_shell]
  rw [put, put, hlength, hkind]
  split
  · rfl
  · split
    · rfl
    · rw [← withChildren_shell (n := m) (by omega), h, withChildren_shell (by omega)]

/-! ## Drawing

The substitutes are drawn one by one from those that are left. What comes of it can be told in
advance: if there are enough of them, the first ones take the places of the children, in order, and
the others are left over. -/

/-- What is made of a drawn value leaves the others as they are. -/
theorem run_bind_pure {α β : Type} (x : Draw α) (f : α → β) (kids : List Substitute) :
    (x >>= fun a => pure (f a)).run kids = (x.run kids).map fun (a, left) => (f a, left) := by
  show (x.run kids >>= fun drawn => _) = _
  cases x.run kids <;> rfl

/-- For every node a substitute is drawn, if there are as many. -/
theorem run_drawAll (nodes : List Node) (kids : List Substitute) :
    (drawAll nodes).run kids =
      if kids.length < nodes.length then .error .tooFewChildren
      else .ok (kids.take nodes.length, kids.drop nodes.length) := by
  induction nodes generalizing kids with
  | nil => rfl
  | cons n rest ih =>
    cases kids with
    | nil => rfl
    | cons s left =>
      have hstep : (drawAll (n :: rest)).run (s :: left) =
          ((drawAll rest).run left).map fun (others, left) => (s :: others, left) :=
        run_bind_pure (drawAll rest) (s :: ·) left
      rw [hstep, ih, apply_ite (Except.map _)]
      simp only [List.length_cons, Nat.add_lt_add_iff_right]
      rfl

/-- For every node of a file a substitute is drawn, if there are as many, and the items are refilled
with them. -/
theorem run_drawItems (items : List (Item Node)) (kids : List Substitute) :
    (drawItems items).run kids =
      let drawn := kids.take (items.filterMap Item.node?).length
      if kids.length < (items.filterMap Item.node?).length then .error .tooFewChildren
      else .ok ((refill items (drawn.map (·.node)), drawn.all (·.kept)),
        kids.drop (items.filterMap Item.node?).length) := by
  -- on the items: a declaration draws nothing, and a node draws the next child
  induction items generalizing kids with
  | nil => rfl
  | cons item rest ih =>
    cases item with
    | declaration d =>
      have hstep : (drawItems (.declaration d :: rest)).run kids =
          ((drawItems rest).run kids).map fun ((items, kept), left) =>
            ((.declaration d :: items, kept), left) :=
        run_bind_pure (drawItems rest) (fun drawn => (Item.declaration d :: drawn.1, drawn.2)) kids
      rw [hstep, ih, apply_ite (Except.map _)]
      rfl
    | node n =>
      cases kids with
      | nil => rfl
      | cons s left =>
        have hstep : (drawItems (.node n :: rest)).run (s :: left) =
            ((drawItems rest).run left).map fun ((items, kept), left) =>
              ((.node s.node :: items, s.kept && kept), left) :=
          run_bind_pure (drawItems rest)
            (fun drawn => (Item.node s.node :: drawn.1, s.kept && drawn.2)) left
        rw [hstep, ih, apply_ite (Except.map _)]
        simp only [List.filterMap_cons, Item.node?, List.length_cons, Nat.add_lt_add_iff_right]
        rfl

/-- For every child a substitute is drawn, if there are as many, and put in the place of the
child. -/
theorem run_redraw (hn : n ≠ bare) (kids : List Substitute) :
    n.redraw.run kids =
      let drawn := kids.take n.children.length
      if kids.length < n.children.length then .error .tooFewChildren
      else .ok ((n.withChildren (drawn.map (·.node)), drawn.all (·.kept)),
        kids.drop n.children.length) := by
  cases n with
  | bare => exact absurd rfl hn
  | sequence elements span =>
    have hstep : (sequence elements span).redraw.run kids =
        ((drawAll elements).run kids).map fun (drawn, left) =>
          (((sequence elements span).withChildren (drawn.map (·.node)), drawn.all (·.kept)),
            left) :=
      run_bind_pure (drawAll elements) (fun drawn : List Substitute =>
        ((sequence elements span).withChildren (drawn.map Substitute.node),
          drawn.all Substitute.kept)) kids
    rw [hstep, run_drawAll, apply_ite (Except.map _)]
    rfl
  | sourceFile items file span =>
    have hstep : (sourceFile items file span).redraw.run kids =
        ((drawItems items).run kids).map fun ((items, kept), left) =>
          ((.ok (sourceFile items file span), kept), left) :=
      run_bind_pure (drawItems items)
        (fun drawn => (Except.ok (sourceFile drawn.1 file span), drawn.2)) kids
    rw [hstep, run_drawItems, apply_ite (Except.map _)]
    rfl
  | paren inner span | statement expr span =>
    match kids with
    | [] => rfl
    | s :: left =>
      have hkept : s.kept = [s].all (·.kept) := (Bool.and_true _).symm
      show Except.ok ((_, s.kept), left) = _
      rw [hkept]
      rfl
  | binary left op right span =>
    match kids with
    | [] | [_] | [_, _] => rfl
    | l :: o :: t :: rest =>
      have hkept : (l.kept && o.kept && t.kept) = [l, o, t].all (·.kept) := by
        simp only [List.all_cons, List.all_nil, Bool.and_true, Bool.and_assoc]
      show Except.ok ((_, l.kept && o.kept && t.kept), rest) = _
      rw [hkept]
      rfl
  | _ => rfl

/-! ## Replacing -/

/-- The substitutes may be counted first, although they are drawn one after another. -/
theorem replaceChildren_of_ne_bare (hn : n ≠ bare) (kids : List Substitute) :
    n.replaceChildren kids =
      if kids.length < n.children.length then .error .tooFewChildren
      else if n.children.length < kids.length then .error (.tooManyChildren n.kindName)
      else if kids.all (·.kept) then .ok ⟨n, true⟩
      else (n.withChildren (kids.map (·.node))).map (⟨·, false⟩) := by
  rw [replaceChildren, run_redraw hn]
  rcases Nat.lt_trichotomy kids.length n.children.length with hlt | heq | hgt
  · rw [if_pos hlt, if_pos hlt]
    rfl
  · have hdrawn : kids.take n.children.length = kids := by rw [← heq, List.take_length]
    have hleft : kids.drop n.children.length = [] := by rw [← heq, List.drop_length]
    simp only [hdrawn, hleft, heq, Nat.lt_irrefl, if_false]
    rfl
  · have hleft : (kids.drop n.children.length).isEmpty = false := by
      rw [List.isEmpty_eq_false_iff, Ne, List.drop_eq_nil_iff]
      omega
    rw [if_neg (by omega), if_neg (by omega), if_pos hgt]
    simp only [Except.bind, bind, hleft, Bool.not_false, if_true]

/-- As many substitutes as there are children leave the node as it is, if all are kept, or else come
in their place. -/
theorem replaceChildren_eq (hne : n.children ≠ []) (hlength : kids.length = n.children.length) :
    n.replaceChildren kids = if kids.all (·.kept) then .ok ⟨n, true⟩
      else (n.withChildren (kids.map (·.node))).map (⟨·, false⟩) := by
  have hn : n ≠ bare := by
    rintro rfl
    exact hne rfl
  rw [replaceChildren_of_ne_bare hn, if_neg (by omega), if_neg (by omega)]

/-- What is said to be the very child that was there before is that child. -/
def Marks (n : Node) (kids : List Substitute) : Prop :=
  ∀ pair ∈ kids.zip n.children, pair.1.kept = true → pair.1.node = pair.2

/-- If all substitutes are kept, they are the children. -/
theorem Marks.map_eq_children (h : n.Marks kids) (hlength : kids.length = n.children.length)
    (hall : kids.all (·.kept) = true) : kids.map (·.node) = n.children := by
  refine List.ext_getElem (by rw [List.length_map, hlength]) fun i hi hi' => ?_
  have hi : i < kids.length := by rwa [List.length_map] at hi
  have hkept : kids[i].kept = true := List.all_eq_true.mp hall _ (List.getElem_mem hi)
  rw [List.getElem_map]
  refine h (kids[i], n.children[i]) ?_ hkept
  exact List.mem_iff_getElem.mpr ⟨i, by rw [List.length_zip]; omega, List.getElem_zip⟩

/-- A replacement looks the same whichever of the nodes are the children of before. -/
theorem map_replaceChildren (hn : n ≠ bare) (hturn : n.isSequence = true → InTurn n.children)
    (h : n.Marks kids) :
    (n.replaceChildren kids).map (·.node) = n.put (kids.map (·.node)) := by
  rw [replaceChildren_of_ne_bare hn, put, List.length_map]
  split
  · rfl
  · split
    · rfl
    · next hle hge =>
      have hlength : kids.length = n.children.length := by omega
      cases hall : kids.all (·.kept) with
      | false =>
        rw [if_neg Bool.false_ne_true]
        cases n.withChildren (kids.map (·.node)) <;> rfl
      | true =>
        rw [if_pos rfl, h.map_eq_children hlength hall, withChildren_own hturn]
        rfl

/-- All that a replacement by as many nodes can come to: the node itself, if every one is kept, and
the node over them otherwise. -/
theorem replaceChildren_of_length_eq (hn : n ≠ bare) (hlength : kids.length = n.children.length) :
    ((∀ kid ∈ kids, kid.kept = true) ∧ n.replaceChildren kids = .ok ⟨n, true⟩) ∨
    ((∃ kid ∈ kids, kid.kept = false) ∧
      n.replaceChildren kids = (n.withChildren (kids.map (·.node))).map (⟨·, false⟩)) := by
  rw [replaceChildren_of_ne_bare hn, if_neg (by omega), if_neg (by omega)]
  cases hall : kids.all (·.kept) with
  | true => exact .inl ⟨List.all_eq_true.mp hall, rfl⟩
  | false =>
    obtain ⟨kid, hkid, hchanged⟩ := List.all_eq_false.mp hall
    exact .inr ⟨⟨kid, hkid, Bool.eq_false_iff.mpr hchanged⟩, rfl⟩

/-- All that a node over other nodes can come to. -/
theorem withChildren_cases (n : Node) (nodes : List Node) :
    (n.isSequence = true ∧ ¬InTurn nodes ∧ ∃ e, n.withChildren nodes = .error (.sequence e)) ∨
    ((n.isSequence = true → InTurn nodes) ∧ ∃ m, n.withChildren nodes = .ok m) := by
  cases hseq : n.isSequence with
  | false => exact .inr ⟨nofun, exists_withChildren hseq nodes⟩
  | true =>
    cases n with
    | sequence elements span =>
      rw [withChildren_sequence, ← sequenceFault_eq_none_iff]
      cases sequenceFault nodes with
      | some e => exact .inl ⟨rfl, nofun, e, rfl⟩
      | none => exact .inr ⟨fun _ => rfl, _, rfl⟩
    | _ => cases hseq

/-- All that a replacement can come to. -/
theorem replaceChildren_cases (hn : n ≠ bare) (kids : List Substitute) :
    (kids.length < n.children.length ∧ n.replaceChildren kids = .error .tooFewChildren) ∨
    (n.children.length < kids.length ∧
      n.replaceChildren kids = .error (.tooManyChildren n.kindName)) ∨
    (kids.length = n.children.length ∧ n.isSequence = true ∧ (∃ kid ∈ kids, kid.kept = false) ∧
      ¬InTurn (kids.map (·.node)) ∧ ∃ e, n.replaceChildren kids = .error (.sequence e)) ∨
    (kids.length = n.children.length ∧
      (n.isSequence = true → (∃ kid ∈ kids, kid.kept = false) → InTurn (kids.map (·.node))) ∧
      ∃ s, n.replaceChildren kids = .ok s) := by
  -- too few children, as many as there are places, or too many
  rcases Nat.lt_trichotomy kids.length n.children.length with hlt | heq | hgt
  · refine .inl ⟨hlt, ?_⟩
    rw [replaceChildren_of_ne_bare hn, if_pos hlt]
  · refine .inr (.inr ?_)
    rcases replaceChildren_of_length_eq hn heq with ⟨hall, hrun⟩ | ⟨hchanged, hrun⟩
    · refine .inr ⟨heq, fun _ ⟨kid, hkid, hchanged⟩ => ?_, _, hrun⟩
      rw [hall kid hkid] at hchanged
      cases hchanged
    · rw [hrun]
      rcases n.withChildren_cases (kids.map (·.node)) with ⟨hseq, hturn, e, hm⟩ | ⟨hturn, m, hm⟩
      · exact .inl ⟨heq, hseq, hchanged, hturn, e, by rw [hm]; rfl⟩
      · exact .inr ⟨heq, fun hseq _ => hturn hseq, _, by rw [hm]; rfl⟩
  · refine .inr (.inl ⟨hgt, ?_⟩)
    rw [replaceChildren_of_ne_bare hn, if_neg (by omega), if_pos hgt]

/-- A replacement that succeeds puts the nodes in and keeps the shell, and a sequence that comes of
it could be built anew. -/
theorem of_replaceChildren {s : Substitute} (hn : n ≠ bare)
    (hturn : n.isSequence = true → InTurn n.children) (h : n.Marks kids)
    (hs : n.replaceChildren kids = .ok s) :
    s.node.children = kids.map (·.node) ∧ s.node.shell = n.shell ∧
      (s.node.isSequence = true → InTurn s.node.children) := by
  have hlength : kids.length = n.children.length := by
    rcases replaceChildren_cases hn kids with ⟨-, hrun⟩ | ⟨-, hrun⟩ | ⟨heq, -⟩ | ⟨heq, -⟩
    · cases hs.symm.trans hrun
    · cases hs.symm.trans hrun
    · exact heq
    · exact heq
  rcases replaceChildren_of_length_eq hn hlength with ⟨hall, hrun⟩ | ⟨-, hrun⟩
  · -- nothing changed: the node itself is returned, and its children are those given
    cases hs.symm.trans hrun
    exact ⟨(h.map_eq_children hlength (List.all_eq_true.mpr hall)).symm, rfl, hturn⟩
  · rcases n.withChildren_cases (kids.map (·.node)) with ⟨-, -, e, hm⟩ | ⟨hturn', m, hm⟩
    · rw [hm] at hrun
      cases hs.symm.trans hrun
    · rw [hm] at hrun
      cases hs.symm.trans hrun
      obtain ⟨hchildren, hshell⟩ := of_withChildren (by rw [List.length_map, hlength]) hm
      refine ⟨hchildren, hshell, fun hseq => ?_⟩
      rw [← isSequence_shell, hshell, isSequence_shell] at hseq
      rw [hchildren]
      exact hturn' hseq

/-- When a replacement fails, and how, and when it succeeds. -/
theorem replaceChildren_iff (hn : n ≠ bare) (kids : List Substitute) :
    (n.replaceChildren kids = .error .tooFewChildren ↔ kids.length < n.children.length) ∧
    (∀ kind, n.replaceChildren kids = .error (.tooManyChildren kind) ↔
      kind = n.kindName ∧ n.children.length < kids.length) ∧
    ((∃ e, n.replaceChildren kids = .error (.sequence e)) ↔
      n.isSequence = true ∧ kids.length = n.children.length ∧ (∃ kid ∈ kids, kid.kept = false) ∧
        ¬InTurn (kids.map (·.node))) ∧
    ((∃ s, n.replaceChildren kids = .ok s) ↔
      kids.length = n.children.length ∧
        (n.isSequence = true → (∃ kid ∈ kids, kid.kept = false) →
          InTurn (kids.map (·.node)))) := by
  rcases replaceChildren_cases hn kids with ⟨hlt, hrun⟩ | ⟨hgt, hrun⟩ |
    ⟨heq, hseq, hchanged, hturn, e, hrun⟩ | ⟨heq, hturn, s, hrun⟩
  · have hne : kids.length ≠ n.children.length := by omega
    have hle : ¬n.children.length < kids.length := by omega
    simp [hrun, hlt, hne, hle]
  · have hne : kids.length ≠ n.children.length := by omega
    have hle : ¬kids.length < n.children.length := by omega
    simp [hrun, hgt, hne, hle, eq_comm (b := n.kindName)]
  · simp [hrun, heq, hseq, hchanged, hturn]
  · rw [hrun, heq]
    refine ⟨by simp, by simp, ⟨nofun, ?_⟩, fun _ => ⟨rfl, hturn⟩, fun _ => ⟨s, rfl⟩⟩
    rintro ⟨hseq, -, hchanged, hno⟩
    exact absurd (hturn hseq hchanged) hno

/-- The laws of a lens, for the children of a node and substitutes for them. -/
structure LensLaws (n : Node) (kids : List Substitute) : Prop where
  too_few : n.replaceChildren kids = .error .tooFewChildren ↔ kids.length < n.children.length
  too_many : ∀ kind, n.replaceChildren kids = .error (.tooManyChildren kind) ↔
    kind = n.kindName ∧ n.children.length < kids.length
  /-- Only a sequence refuses children of the right number: new ones that are not in turn. -/
  out_of_turn : (∃ e, n.replaceChildren kids = .error (.sequence e)) ↔
    n.isSequence = true ∧ kids.length = n.children.length ∧ (∃ kid ∈ kids, kid.kept = false) ∧
      ¬InTurn (kids.map (·.node))
  succeeds : (∃ s, n.replaceChildren kids = .ok s) ↔
    kids.length = n.children.length ∧
      (n.isSequence = true → (∃ kid ∈ kids, kid.kept = false) → InTurn (kids.map (·.node)))
  /-- What has been put in is read again. -/
  get_put : ∀ s, n.replaceChildren kids = .ok s → s.node.children = kids.map (·.node)
  frame : ∀ s, n.replaceChildren kids = .ok s → s.node.shell = n.shell
  /-- The children themselves, put in again, give the node itself. -/
  put_get : n.replaceChildren (n.children.map (⟨·, true⟩)) = .ok ⟨n, true⟩
  /-- A second replacement comes to what it would have come to without the first one. -/
  put_put : ∀ s, n.replaceChildren kids = .ok s → ∀ again again' : List Substitute,
    again.map (·.node) = again'.map (·.node) → s.node.Marks again → n.Marks again' →
      (s.node.replaceChildren again).map (·.node) = (n.replaceChildren again').map (·.node)

/-- **The children of a node are a lawful lens.** -/
theorem replaceChildren_lawful (hn : n ≠ bare) (hturn : n.isSequence = true → InTurn n.children)
    (h : n.Marks kids) : n.LensLaws kids := by
  obtain ⟨hfew, hmany, hmisplaced, hok⟩ := replaceChildren_iff hn kids
  refine ⟨hfew, hmany, hmisplaced, hok, ?_, ?_, ?_, ?_⟩
  · exact fun s hs => (of_replaceChildren hn hturn h hs).1
  · exact fun s hs => (of_replaceChildren hn hturn h hs).2.1
  · have hlength : (n.children.map (⟨·, true⟩ : Node → Substitute)).length = n.children.length :=
      List.length_map _
    rcases replaceChildren_of_length_eq hn hlength with ⟨-, hrun⟩ | ⟨⟨kid, hkid, hchanged⟩, -⟩
    · exact hrun
    · obtain ⟨_, -, rfl⟩ := List.mem_map.mp hkid
      cases hchanged
  · intro s hs again again' hsame hagain hagain'
    obtain ⟨-, hshell, hturn'⟩ := of_replaceChildren hn hturn h hs
    have hs : s.node ≠ bare := fun hbare => hn (eq_bare_of_shell (hbare ▸ hshell).symm)
    rw [map_replaceChildren hs hturn' hagain, map_replaceChildren hn hturn hagain', hsame]
    exact put_congr hshell _

/-- The sequence `x + y`. -/
def sumSequence : Node :=
  .sequence [.name "x" .unknown, .operator ⟨"+", .unknown⟩, .name "y" .unknown] .unknown

/-- A new first operand for that sequence. -/
def otherOperand : List Substitute :=
  [⟨.name "z" .unknown, false⟩, ⟨.operator ⟨"+", .unknown⟩, true⟩, ⟨.name "y" .unknown, true⟩]

/-- A statement of `x`, a declaration, and a statement of `x + y`. -/
def mixedFile : Node :=
  .sourceFile [.node (.statement (.name "x" .unknown) .unknown),
    .declaration (.group { name := "g" }), .node (.statement sumSequence .unknown)] (some "f")
    .unknown

/-- A new first statement for that file. -/
def otherStatement : List Substitute :=
  [⟨.statement (.name "z" .unknown) .unknown, false⟩, ⟨.statement sumSequence .unknown, true⟩]

/-- With a new first statement, the declaration of a file stays in its place. With a new first
operand, a sequence refuses an operand in the place of its operator just as it did before. -/
theorem replaceChildren_lawful_mixedFile :
    (mixedFile ≠ bare ∧ mixedFile.Marks otherStatement ∧
      ∃ s, mixedFile.replaceChildren otherStatement = .ok s ∧
        s.node.children = otherStatement.map (·.node) ∧ s.node.shell = mixedFile.shell) ∧
    sumSequence ≠ bare ∧ InTurn sumSequence.children ∧ sumSequence.Marks otherOperand ∧
      ∃ s, sumSequence.replaceChildren otherOperand = .ok s ∧
        (s.node.replaceChildren [⟨.name "z" .unknown, true⟩, ⟨.name "z" .unknown, false⟩,
            ⟨.name "y" .unknown, true⟩]).map (·.node) =
          .error (.sequence (.misplaced 1 "NameExpr")) := by
  have hturn (ident : String) :
      InTurn [.name ident .unknown, .operator ⟨"+", .unknown⟩, .name "y" .unknown] :=
    sequenceFault_eq_none_iff.mp (by simp [sequenceFault, misplacedFrom, isOperator])
  have hfile : mixedFile.Marks otherStatement := by
    simp [Marks, mixedFile, otherStatement, children, Item.node?, List.filterMap_cons]
  have hsum : sumSequence.Marks otherOperand := by
    simp [Marks, sumSequence, otherOperand, children]
  have hfile_bare : mixedFile ≠ bare := by
    intro heq
    cases heq
  have hsum_bare : sumSequence ≠ bare := by
    intro heq
    cases heq
  have hfile_seq {p : Prop} (hseq : mixedFile.isSequence = true) : p := by cases hseq
  refine ⟨⟨hfile_bare, hfile, ?_⟩, hsum_bare, hturn "x", hsum, ?_⟩
  · have hlaws := replaceChildren_lawful hfile_bare hfile_seq hfile
    obtain ⟨s, hs⟩ := hlaws.succeeds.mpr ⟨rfl, hfile_seq⟩
    exact ⟨s, hs, hlaws.get_put s hs, hlaws.frame s hs⟩
  · have hlaws := replaceChildren_lawful hsum_bare (fun _ => hturn "x") hsum
    obtain ⟨s, hs⟩ := hlaws.succeeds.mpr ⟨rfl, fun _ _ => hturn "z"⟩
    -- put into the first sequence, the name `z` would be a new operand
    have hagain := hlaws.put_put s hs
      [⟨.name "z" .unknown, true⟩, ⟨.name "z" .unknown, false⟩, ⟨.name "y" .unknown, true⟩]
      [⟨.name "z" .unknown, false⟩, ⟨.name "z" .unknown, false⟩, ⟨.name "y" .unknown, true⟩]
      rfl (by rw [Marks, hlaws.get_put s hs]; simp [otherOperand])
      (by simp [Marks, sumSequence, children])
    exact ⟨s, hs, hagain⟩

end OperatorFold.Node
