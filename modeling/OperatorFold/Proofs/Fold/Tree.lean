import OperatorFold.Fold.Tree
import OperatorFold.Tree.Search
import OperatorFold.Proofs.Reporting
import OperatorFold.Proofs.Tree.Children

/-! # The fold of a tree is a recursion

The stack of tasks on which a tree is folded works off one node after another: to enter a node comes
to folding it by itself and keeping its result (`work_enter`). So the fold of a tree is the
recursion that folds the children of a node from left to right and then finishes the node over them
(`foldTree_eq_foldNode`).

`Folds` says what this recursion comes to at one node. It is composed child by child (`FoldsAll`),
and a node without sequences folds to itself (`folds_of_not_containsSequence`).
-/

namespace OperatorFold

open Reporting

/-! ## Looking for sequences -/

namespace Node

/-- The search looks at a node, then at its children, and then at the others. -/
theorem anySequence_cons (n : Node) (nodes : List Node) :
    anySequence (n :: nodes) = (n.isSequence || anySequence (n.children ++ nodes)) := by
  rw [anySequence]

theorem anySequence_append (nodes others : List Node) :
    anySequence (nodes ++ others) = (anySequence nodes || anySequence others) := by
  induction nodes using anySequence.induct with
  | case1 => rw [anySequence, Bool.false_or, List.nil_append]
  | case2 n stack ih =>
    rw [List.cons_append, anySequence_cons, anySequence_cons, ← List.append_assoc, ih,
      Bool.or_assoc]

/-- The search finds a sequence if there is one in any of the nodes. -/
theorem anySequence_eq_any (nodes : List Node) :
    anySequence nodes = nodes.any containsSequence := by
  induction nodes with
  | nil => rw [anySequence, List.any_nil]
  | cons n rest ih =>
    rw [← List.singleton_append, anySequence_append, ih]
    rfl

/-- A sequence is left in a tree if the tree is one or one is left in a child. -/
theorem containsSequence_eq (n : Node) :
    n.containsSequence = (n.isSequence || n.children.any containsSequence) := by
  rw [containsSequence, anySequence_cons, List.append_nil, anySequence_eq_any]

theorem containsSequence_sequence (elements : List Node) (span : Span) :
    (sequence elements span).containsSequence = true := by
  rw [containsSequence_eq]
  rfl

theorem containsSequence_operator (use : OperatorUse) :
    (operator use).containsSequence = false := by
  rw [containsSequence_eq]
  rfl

end Node

/-! ## The recursion -/

/-- Two continuations of a traversal come to the same if they agree on as many results as there are
entries. -/
theorem mapM_bind_congr {α β γ : Type} {f : α → Reporting β} {nodes : List α}
    {g g' : List β → Reporting γ} (h : ∀ kids, kids.length = nodes.length → g kids = g' kids) :
    (do let kids ← nodes.mapM f; g kids) = (do let kids ← nodes.mapM f; g' kids) := by
  induction nodes generalizing g g' with
  | nil =>
    simp only [List.mapM_nil, pure_bind]
    exact h [] rfl
  | cons n rest ih =>
    simp only [List.mapM_cons, bind_assoc, pure_bind]
    congr 1
    funext kid
    apply ih
    intro kids hkids
    exact h (kid :: kids) (congrArg (· + 1) hkids)

namespace Registry

/-- Folds the children of a node from left to right, and finishes the node over them. -/
def foldNode (r : Registry) (n : Node) : Reporting Substitute := do
  let kids ← n.children.attach.mapM fun kid => foldNode r kid.1
  r.finish n kids
termination_by sizeOf n
decreasing_by exact Node.sizeOf_lt_of_mem_children kid.2

variable (r : Registry)

/-- A node is finished over its folded children. -/
theorem foldNode_eq (n : Node) :
    r.foldNode n = (do let kids ← n.children.mapM r.foldNode; r.finish n kids) := by
  have hkids : (n.children.attach.map Subtype.val).mapM r.foldNode =
      n.children.attach.mapM fun kid => r.foldNode kid.1 := List.mapM_map
  rw [List.attach_map_subtype_val] at hkids
  rw [foldNode, hkids]

/-- To enter some nodes comes to folding each by itself, if it does for every one of them. -/
theorem work_enterAll {nodes : List Node}
    (h : ∀ n ∈ nodes, ∀ tasks done, r.work (.enter n :: tasks) done =
      (do let s ← r.foldNode n; r.work tasks (s :: done)))
    (tasks : List Task) (done : List Substitute) :
    r.work (nodes.map .enter ++ tasks) done =
      (do let kids ← nodes.mapM r.foldNode; r.work tasks (kids.reverse ++ done)) := by
  -- on the nodes, with what is done already left open, since each of them adds to it
  induction nodes generalizing done with
  | nil => simp only [List.map_nil, List.mapM_nil, pure_bind, List.reverse_nil, List.nil_append]
  | cons n rest ih =>
    have hrest : ∀ m ∈ rest, ∀ tasks done, r.work (.enter m :: tasks) done =
        (do let s ← r.foldNode m; r.work tasks (s :: done)) := by
      intro m hm
      exact h m (List.mem_cons_of_mem _ hm)
    rw [List.map_cons, List.cons_append, h n List.mem_cons_self]
    simp only [ih hrest, List.mapM_cons, bind_assoc, pure_bind, List.reverse_cons,
      List.append_assoc, List.singleton_append]

/-- To enter a node comes to folding it by itself and keeping its result. -/
theorem work_enter (n : Node) (tasks : List Task) (done : List Substitute) :
    r.work (.enter n :: tasks) done = (do let s ← r.foldNode n; r.work tasks (s :: done)) := by
  have hall : ∀ kid ∈ n.children, ∀ tasks done, r.work (.enter kid :: tasks) done =
      (do let s ← r.foldNode kid; r.work tasks (s :: done)) := by
    intro kid hkid
    exact work_enter kid
  rw [work, r.work_enterAll hall, foldNode_eq, bind_assoc]
  -- as many finished nodes lie on top as the node has children, so it takes up just these
  apply mapM_bind_congr
  intro kids hlength
  have htake : ((kids.reverse ++ done).take n.children.length).reverse = kids := by
    rw [List.take_left' (by rw [List.length_reverse, hlength]), List.reverse_reverse]
  have hdrop : (kids.reverse ++ done).drop n.children.length = done :=
    List.drop_left' (by rw [List.length_reverse, hlength])
  rw [work, htake, hdrop]
termination_by sizeOf n
decreasing_by exact Node.sizeOf_lt_of_mem_children hkid

/-- **The fold of a tree is a recursion.** -/
theorem foldTree_eq_foldNode (n : Node) : r.foldTree n = r.foldNode n := by
  rw [foldTree, work_enter, bind_assoc]
  simp only [work, pure_bind, bind_pure]

end Registry

/-! ## Finishing a node -/

namespace Registry

variable {r : Registry} {n m : Node} {nodes ms : List Node} {es es' : List PrecedenceError}
  {kids : List Substitute}

/-- A node becomes the node over its finished children, and what is then a sequence is folded. -/
theorem finish_eq (hlength : kids.length = n.children.length)
    (hkept : kids.all (·.kept) = true → m = n)
    (hwith : kids.all (·.kept) = false → n.withChildren (kids.map (·.node)) = .ok m) :
    r.finish n kids = match m with
      | .sequence elements _ => do
        let folded ← r.foldSequence elements
        pure ⟨folded, false⟩
      | _ => pure ⟨m, kids.all (·.kept)⟩ := by
  rw [finish]
  by_cases hempty : n.children = []
  · -- a node without children is not rebuilt, which comes to the same as keeping it
    have hkids : kids = [] := by
      rw [hempty] at hlength
      exact List.length_eq_zero_iff.mp hlength
    have hm : m = n := hkept (by rw [hkids]; rfl)
    rw [hempty, hkids, hm]
    rfl
  · have hnot : n.children.isEmpty = false := List.isEmpty_eq_false_iff.mpr hempty
    rw [hnot, if_neg Bool.false_ne_true, Node.replaceChildren_eq hempty hlength]
    cases hall : kids.all (·.kept) with
    | true => rw [if_pos rfl, hkept hall]; rfl
    | false => rw [if_neg Bool.false_ne_true, hwith hall]; rfl

/-- A sequence is folded over its finished elements, which have to alternate if there is a new one
among them. -/
theorem finish_sequence {span : Span} (hlength : kids.length = nodes.length)
    (hkept : kids.all (·.kept) = true → kids.map (·.node) = nodes)
    (hfault : kids.all (·.kept) = false → Node.sequenceFault (kids.map (·.node)) = none) :
    r.finish (.sequence nodes span) kids = (do
      let folded ← r.foldSequence (kids.map (·.node))
      pure ⟨folded, false⟩) := by
  refine finish_eq (n := .sequence nodes span) (m := .sequence (kids.map (·.node)) span) hlength
    (fun hall => ?_) (fun hall => ?_)
  · rw [hkept hall]
  · rw [Node.withChildren, Node.sequence?, hfault hall]
    rfl

/-! ## What a node folds to -/

/-- A node folds to `m` and reports `es`. It is kept if no sequence is left in it. -/
structure Folds (r : Registry) (n m : Node) (es : List PrecedenceError) : Prop where
  yields : Yields (r.foldNode n) ⟨m, !n.containsSequence⟩ es
  eq_of_kept : n.containsSequence = false → m = n

/-- Nodes fold one by one. -/
inductive FoldsAll (r : Registry) : List Node → List Node → List PrecedenceError → Prop
  | nil : FoldsAll r [] [] []
  | cons {n m : Node} {nodes ms : List Node} {es es' : List PrecedenceError} (h : r.Folds n m es)
      (hrest : FoldsAll r nodes ms es') : FoldsAll r (n :: nodes) (m :: ms) (es ++ es')

theorem FoldsAll.append {nodes' ms' : List Node} (h : r.FoldsAll nodes ms es)
    (h' : r.FoldsAll nodes' ms' es') : r.FoldsAll (nodes ++ nodes') (ms ++ ms') (es ++ es') := by
  induction h with
  | nil => exact h'
  | cons hn _ ih =>
    rw [List.append_assoc]
    exact .cons hn ih

/-- Nodes without sequences stay as they are. -/
theorem FoldsAll.eq_of_kept (h : r.FoldsAll nodes ms es)
    (hnone : nodes.any Node.containsSequence = false) : ms = nodes := by
  induction h with
  | nil => rfl
  | cons hn _ ih =>
    rw [List.any_cons, Bool.or_eq_false_iff] at hnone
    rw [hn.eq_of_kept hnone.1, ih hnone.2]

/-- The traversal of nodes yields what they fold to, and keeps all of them if no sequence is left in
any. -/
theorem FoldsAll.exists_yields (h : r.FoldsAll nodes ms es) :
    ∃ kids, Yields (nodes.mapM r.foldNode) kids es ∧ kids.map (·.node) = ms ∧
      kids.length = nodes.length ∧ kids.all (·.kept) = !nodes.any Node.containsSequence := by
  -- along the nodes: each is kept if it contains no sequence, and all are if none does
  induction h with
  | nil =>
    refine ⟨[], ?_, rfl, rfl, rfl⟩
    rw [List.mapM_nil]
    exact yields_pure []
  | @cons n m nodes ms es es' hn _ ih =>
    obtain ⟨kids, hyields, hnodes, hlength, hkept⟩ := ih
    refine ⟨⟨m, !n.containsSequence⟩ :: kids, ?_, ?_, ?_, ?_⟩
    · rw [List.mapM_cons, ← List.append_nil es']
      exact hn.yields.bind (hyields.bind (yields_pure _))
    · rw [List.map_cons, hnodes]
    · rw [List.length_cons, List.length_cons, hlength]
    · rw [List.all_cons, List.any_cons, hkept, Bool.not_or]

section Finish

variable {span : Span} (hnodes : kids.map (·.node) = ms)

include hnodes

/-- Over its finished children a sequence becomes the fold of them. They have to alternate only if
there is a new one among them. -/
theorem FoldsAll.finish_sequence (h : r.FoldsAll nodes ms es) (hlength : kids.length = nodes.length)
    (hkept : kids.all (·.kept) = !nodes.any Node.containsSequence)
    (hfault : nodes.any Node.containsSequence = true → Node.sequenceFault ms = none) :
    r.finish (.sequence nodes span) kids = (do
      let folded ← r.foldSequence ms
      pure ⟨folded, false⟩) := by
  rw [← hnodes]
  refine Registry.finish_sequence hlength (fun hall => ?_) (fun hall => ?_)
  · exact hnodes.trans (h.eq_of_kept (by simpa using hkept.symm.trans hall))
  · exact hnodes ▸ hfault (by simpa using hkept.symm.trans hall)

/-- Any other node has them for its children. It is kept if no sequence is left in it. -/
theorem FoldsAll.finish_other (h : r.FoldsAll n.children ms es)
    (hlength : kids.length = n.children.length)
    (hkept : kids.all (·.kept) = !n.children.any Node.containsSequence)
    (hseq : n.isSequence = false) (hm : n.withChildren ms = .ok m) :
    r.finish n kids = pure ⟨m, !n.containsSequence⟩ ∧ (n.containsSequence = false → m = n) := by
  have hcontains : n.containsSequence = n.children.any Node.containsSequence := by
    rw [Node.containsSequence_eq, hseq, Bool.false_or]
  -- the children are all kept exactly if the node is
  have hsame : n.containsSequence = false → m = n := by
    intro hnone
    rw [h.eq_of_kept (hcontains.symm.trans hnone), Node.withChildren_children hseq] at hm
    cases hm
    rfl
  rw [← hcontains] at hkept
  have hfinish := finish_eq (r := r) hlength
    (fun hall => hsame (by simpa using hkept.symm.trans hall))
    (fun _ => hnodes.symm ▸ hm)
  refine ⟨?_, hsame⟩
  rw [hfinish, ← hkept]
  have hm : m.isSequence = false := Node.isSequence_of_withChildren hseq hm
  cases m with
  | sequence elements span => cases hm
  | _ => rfl

end Finish

/-- A node that is no sequence folds to the node over what its children fold to. -/
theorem FoldsAll.folds (h : r.FoldsAll n.children ms es) (hseq : n.isSequence = false)
    (hm : n.withChildren ms = .ok m) : r.Folds n m es := by
  obtain ⟨kids, hyields, hnodes, hlength, hkept⟩ := h.exists_yields
  obtain ⟨hfinish, hsame⟩ := h.finish_other hnodes hlength hkept hseq hm
  refine ⟨?_, hsame⟩
  rw [foldNode_eq, ← List.append_nil es]
  refine hyields.bind ?_
  rw [hfinish]
  exact yields_pure _

/-- A sequence folds to the fold of what its elements fold to. -/
theorem FoldsAll.folds_sequence {span : Span} (h : r.FoldsAll nodes ms es)
    (hfault : nodes.any Node.containsSequence = true → Node.sequenceFault ms = none)
    (hfold : Yields (r.foldSequence ms) m es') : r.Folds (.sequence nodes span) m (es ++ es') := by
  obtain ⟨kids, hyields, hnodes, hlength, hkept⟩ := h.exists_yields
  have hcontains := Node.containsSequence_sequence nodes span
  refine ⟨?_, fun hnone => absurd (hcontains.symm.trans hnone) Bool.false_ne_true.symm⟩
  rw [foldNode_eq, hcontains]
  refine hyields.bind ?_
  have hfinish : r.finish (.sequence nodes span) kids = _ :=
    h.finish_sequence hnodes hlength hkept hfault
  rw [hfinish, ← List.append_nil es']
  exact hfold.bind (yields_pure _)

/-- Nodes that all stay as they are stay so together. -/
theorem foldsAll_of_forall (h : ∀ n ∈ nodes, r.Folds n n []) : r.FoldsAll nodes nodes [] := by
  induction nodes with
  | nil => exact .nil
  | cons n rest ih =>
    have hrest : r.FoldsAll rest rest [] := by
      apply ih
      intro m hm
      exact h m (List.mem_cons_of_mem _ hm)
    exact .cons (h n List.mem_cons_self) hrest

/-- A node in which no sequence is left folds to itself. -/
theorem folds_of_not_containsSequence (r : Registry) (n : Node) (h : n.containsSequence = false) :
    r.Folds n n [] := by
  rw [Node.containsSequence_eq, Bool.or_eq_false_iff] at h
  obtain ⟨hseq, hkids⟩ := h
  have hall : ∀ kid ∈ n.children, r.Folds kid kid [] := by
    intro kid hkid
    have hnone : kid.containsSequence = false := by
      simpa using List.any_eq_false.mp hkids kid hkid
    exact folds_of_not_containsSequence r kid hnone
  exact (foldsAll_of_forall hall).folds hseq (Node.withChildren_children hseq)
termination_by sizeOf n
decreasing_by exact Node.sizeOf_lt_of_mem_children hkid

/-- A leaf other than a sequence stays as it is. -/
theorem folds_leaf (r : Registry) (hseq : n.isSequence = false) (hleaf : n.children = []) :
    r.Folds n n [] := by
  apply r.folds_of_not_containsSequence
  rw [Node.containsSequence_eq, hseq, hleaf]
  rfl

/-- An operator is kept. -/
theorem Folds.operator {use : OperatorUse} (h : r.Folds (.operator use) m es) :
    m = .operator use :=
  h.eq_of_kept (Node.containsSequence_operator use)

/-- What a node folds to is what the fold of the tree yields. -/
theorem Folds.yields_foldTree (h : r.Folds n m es) :
    Yields (r.foldTree n) ⟨m, !n.containsSequence⟩ es := by
  rw [foldTree_eq_foldNode]
  exact h.yields

end Registry

end OperatorFold
