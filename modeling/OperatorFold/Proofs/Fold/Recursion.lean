import OperatorFold.Proofs.Fold.Outcome
import OperatorFold.Proofs.Fold.Shape
import OperatorFold.Proofs.Tree.Within

/-! # Folding by recursion

`recursiveFold` says what folding a tree means, without a stack of tasks: fold the parts of a node
from left to right, put the node together again over them, and fold it if it is a sequence. The
errors are those of the single folds, in the order in which these are done.

Wherever the fold of a tree has a result, it is this one (`Folds.recursiveFold_eq`), and over a
well-formed tree it has one (`exists_folds`): a fold stands where an operand stood, and
an operator between operands stays one, so the elements of every sequence still alternate when it is
folded.
-/

namespace OperatorFold

open Reporting

namespace Registry

/-! ## The recursion -/

mutual

/-- The fold of a tree, by recursion on it. -/
def recursiveFold (r : Registry) : Node → Except Halt (Outcome Node)
  | .paren inner span => do
    let folded ← recursiveFold r inner
    pure ⟨.paren folded.value span, folded.errors⟩
  | .sequence elements _ => do
    let folded ← recursiveFoldAll r elements
    let whole ← (r.foldSequence folded.value).collect
    pure ⟨whole.value, folded.errors ++ whole.errors⟩
  | .binary left op right span => do
    let l ← recursiveFold r left
    let o ← recursiveFold r op
    let t ← recursiveFold r right
    pure ⟨.binary l.value o.value t.value span, l.errors ++ o.errors ++ t.errors⟩
  | .statement expr span => do
    let folded ← recursiveFold r expr
    pure ⟨.statement folded.value span, folded.errors⟩
  | .sourceFile items file span => do
    let folded ← recursiveFoldItems r items
    pure ⟨.sourceFile folded.value file span, folded.errors⟩
  | n => pure ⟨n, []⟩

/-- The folds of some nodes, from left to right. -/
def recursiveFoldAll (r : Registry) : List Node → Except Halt (Outcome (List Node))
  | [] => pure ⟨[], []⟩
  | n :: rest => do
    let folded ← recursiveFold r n
    let others ← recursiveFoldAll r rest
    pure ⟨folded.value :: others.value, folded.errors ++ others.errors⟩

/-- The entries of a file with their nodes folded; declarations are none. -/
def recursiveFoldItems (r : Registry) : List (Item Node) → Except Halt (Outcome (List (Item Node)))
  | [] => pure ⟨[], []⟩
  | .declaration d :: rest => do
    let others ← recursiveFoldItems r rest
    pure ⟨.declaration d :: others.value, others.errors⟩
  | .node n :: rest => do
    let folded ← recursiveFold r n
    let others ← recursiveFoldItems r rest
    pure ⟨.node folded.value :: others.value, folded.errors ++ others.errors⟩

end

variable {r : Registry} {n m : Node} {nodes ms : List Node} {es es' : List PrecedenceError}

/-- Nodes fold one after another, and so do their errors come. -/
theorem recursiveFoldAll_cons (h : r.recursiveFold n = .ok ⟨m, es⟩)
    (hrest : r.recursiveFoldAll nodes = .ok ⟨ms, es'⟩) :
    r.recursiveFoldAll (n :: nodes) = .ok ⟨m :: ms, es ++ es'⟩ := by
  rw [recursiveFoldAll, h, hrest]
  rfl

/-- If some nodes fold, the first one does, and then the others. -/
theorem of_recursiveFoldAll_cons {whole : Outcome (List Node)}
    (h : r.recursiveFoldAll (n :: nodes) = .ok whole) :
    ∃ m es ms es', r.recursiveFold n = .ok ⟨m, es⟩ ∧ r.recursiveFoldAll nodes = .ok ⟨ms, es'⟩ ∧
      whole = ⟨m :: ms, es ++ es'⟩ := by
  rw [recursiveFoldAll] at h
  obtain ⟨folded, hn, h⟩ := exists_of_bind_eq_ok h
  obtain ⟨others, hrest, h⟩ := exists_of_bind_eq_ok h
  cases h
  exact ⟨_, _, _, _, hn, hrest, rfl⟩

/-- The entries of a file fold as the nodes among them do, and the rest of them stays. -/
theorem recursiveFoldItems_eq {items : List (Item Node)}
    (h : r.recursiveFoldAll (items.filterMap Item.node?) = .ok ⟨ms, es⟩) :
    r.recursiveFoldItems items = .ok ⟨Node.refill items ms, es⟩ := by
  induction items generalizing ms es with
  | nil =>
    cases h
    rfl
  | cons item rest ih =>
    cases item with
    | declaration d =>
      rw [recursiveFoldItems, ih h]
      rfl
    | node n =>
      obtain ⟨m, es₁, ms, es₂, hn, hrest, heq⟩ := of_recursiveFoldAll_cons h
      cases heq
      rw [recursiveFoldItems, hn, ih hrest]
      rfl

/-- A node that is no sequence is put together again over the folds of its children. -/
theorem recursiveFold_eq_of_withChildren (hseq : n.isSequence = false)
    (h : r.recursiveFoldAll n.children = .ok ⟨ms, es⟩) (hm : n.withChildren ms = .ok m) :
    r.recursiveFold n = .ok ⟨m, es⟩ := by
  -- the recursion goes into the fields by name, and the children are these fields in order
  cases n with
  | sequence elements span => cases hseq
  | paren inner span =>
    obtain ⟨m₁, es₁, _, _, hinner, hnil, heq⟩ := of_recursiveFoldAll_cons h
    cases hnil
    cases heq
    cases hm
    rw [recursiveFold, hinner, List.append_nil]
    rfl
  | statement expr span =>
    obtain ⟨m₁, es₁, _, _, hexpr, hnil, heq⟩ := of_recursiveFoldAll_cons h
    cases hnil
    cases heq
    cases hm
    rw [recursiveFold, hexpr, List.append_nil]
    rfl
  | binary left op right span =>
    obtain ⟨l, es₁, _, _, hleft, hrest, heq⟩ := of_recursiveFoldAll_cons h
    obtain ⟨o, es₂, _, _, hop, hlast, heq₂⟩ := of_recursiveFoldAll_cons hrest
    obtain ⟨t, es₃, _, _, hright, hnil, heq₃⟩ := of_recursiveFoldAll_cons hlast
    cases hnil
    cases heq₃
    cases heq₂
    cases heq
    cases hm
    rw [recursiveFold, hleft, hop, hright, List.append_nil, ← List.append_assoc]
    rfl
  | sourceFile items file span =>
    cases hm
    rw [recursiveFold, recursiveFoldItems_eq h]
    rfl
  | _ =>
    cases h
    cases hm
    rfl

/-! ## The fold is the recursion -/

/-- Where nodes fold one by one, so they do by recursion. -/
theorem FoldsAll.recursiveFoldAll_eq (h : r.FoldsAll nodes ms es)
    (hrec : ∀ n ∈ nodes, ∀ m es, r.Folds n m es → r.recursiveFold n = .ok ⟨m, es⟩) :
    r.recursiveFoldAll nodes = .ok ⟨ms, es⟩ := by
  induction h with
  | nil => rfl
  | cons hn _ ih =>
    refine recursiveFoldAll_cons (hrec _ List.mem_cons_self _ _ hn) (ih ?_)
    intro n hn
    exact hrec n (List.mem_cons_of_mem _ hn)

/-- What a node folds to is what the recursion says. -/
theorem Folds.recursiveFold_eq (h : r.Folds n m es) : r.recursiveFold n = .ok ⟨m, es⟩ := by
  induction n using Node.children_induction generalizing m es with
  | step n ih =>
    obtain ⟨ms, es₁, es₂, hall, hbecomes, rfl⟩ := h.inv
    have hkids : r.recursiveFoldAll n.children = .ok ⟨ms, es₁⟩ :=
      hall.recursiveFoldAll_eq fun kid hkid _ _ hfolds => ih kid hkid hfolds
    cases hbecomes with
    | sequence hfold =>
      rw [Node.children] at hkids
      rw [recursiveFold, hkids]
      show (do
        let whole ← (r.foldSequence ms).collect
        pure (⟨whole.value, es₁ ++ whole.errors⟩ : Outcome Node)) = _
      rw [hfold.collect]
      rfl
    | other hseq hm =>
      rw [List.append_nil]
      exact recursiveFold_eq_of_withChildren hseq hkids hm

/-! ## Well-formed trees fold -/

end Registry

namespace Node

/-- A node can stand in the place of another one in a sequence. -/
def CanReplace (m n : Node) : Prop := m.isOperator = n.isOperator ∧ (m = .bare → n = .bare)

/-- Nodes that can take the places of others are in place where those are. -/
theorem misplacedFrom_of_canReplace {ms nodes : List Node} {index : Nat}
    (h : List.Forall₂ CanReplace ms nodes) (hnone : misplacedFrom index nodes = none) :
    misplacedFrom index ms = none := by
  induction h generalizing index with
  | nil => rfl
  | cons hn _ ih =>
    rw [misplacedFrom] at hnone ⊢
    rw [hn.1]
    split at hnone
    · next hplace => rw [if_pos hplace, ih hnone]
    · cases hnone

/-- Elements that are replaced one for one still alternate. -/
theorem sequenceFault_of_canReplace {ms nodes : List Node}
    (h : List.Forall₂ CanReplace ms nodes) (hnone : sequenceFault nodes = none) :
    sequenceFault ms = none := by
  rw [sequenceFault] at hnone ⊢
  rw [h.length_eq]
  split at hnone
  · cases hnone
  · next hodd => rw [if_neg hodd, misplacedFrom_of_canReplace h hnone]

/-- No bare node takes the place of another kind of node. -/
theorem not_mem_bare_of_canReplace {ms nodes : List Node} (h : List.Forall₂ CanReplace ms nodes)
    (hbare : .bare ∉ nodes) : .bare ∉ ms := by
  induction h with
  | nil => exact hbare
  | cons hn _ ih =>
    rw [List.mem_cons, not_or] at hbare ⊢
    exact ⟨fun heq => hbare.1 (hn.2 heq.symm).symm, ih hbare.2⟩

/-- Other children make neither an operator nor a bare node of a node. -/
theorem canReplace_of_withChildren {n m : Node} {kids : List Node} (hseq : n.isSequence = false)
    (h : n.withChildren kids = .ok m) : m.CanReplace n := by
  unfold withChildren at h
  split at h
  · cases h; exact ⟨rfl, nofun⟩
  · cases hseq
  · cases h; exact ⟨rfl, nofun⟩
  · cases h; exact ⟨rfl, nofun⟩
  · cases h; exact ⟨rfl, nofun⟩
  · cases h; exact ⟨rfl, id⟩

end Node

namespace Registry

variable {r : Registry} {n m : Node} {nodes ms : List Node} {es es' : List PrecedenceError}

/-- If each of some nodes folds to one that can take its place, all of them do. -/
theorem exists_foldsAll (h : ∀ n ∈ nodes, ∃ m es, r.Folds n m es ∧ m.CanReplace n) :
    ∃ ms es, r.FoldsAll nodes ms es ∧ List.Forall₂ Node.CanReplace ms nodes := by
  induction nodes with
  | nil => exact ⟨[], [], .nil, .nil⟩
  | cons n rest ih =>
    obtain ⟨m, es, hn, hplace⟩ := h n List.mem_cons_self
    obtain ⟨ms, es', hrest, hplaces⟩ := ih fun m hm => h m (List.mem_cons_of_mem _ hm)
    exact ⟨m :: ms, es ++ es', .cons hn hrest, .cons hplace hplaces⟩

/-- Over what its children fold to, a well-formed node is finished as what it folds to. -/
theorem FoldsAll.exists_finish {kids : List Substitute} (h : r.FoldsAll n.children ms es)
    (hn : n.WellFormed) (hplaces : List.Forall₂ Node.CanReplace ms n.children)
    (hnodes : kids.map (·.node) = ms) (hlength : kids.length = n.children.length)
    (hkept : kids.all (·.kept) = !n.children.any Node.containsSequence) :
    ∃ m es', Yields (r.finish n kids) ⟨m, !n.containsSequence⟩ es' ∧ r.Folds n m (es ++ es') ∧
      m.CanReplace n := by
  cases hseq : n.isSequence with
  | false =>
    obtain ⟨m, hm⟩ := Node.exists_withChildren hseq ms
    obtain ⟨hfinish, -⟩ := h.finish_other hnodes hlength hkept hseq hm
    refine ⟨m, [], ?_, ?_, Node.canReplace_of_withChildren hseq hm⟩
    · rw [hfinish]
      exact yields_pure _
    · rw [List.append_nil]
      exact h.folds hseq hm
  -- the elements fold to nodes that can take their places, so they are a sequence again
  | true =>
    cases n with
    | sequence nodes span =>
      obtain ⟨⟨halternates, hbare⟩, -⟩ := Node.wellFormed_sequence.mp hn
      have hfault := Node.sequenceFault_of_canReplace hplaces halternates
      have hbare' := Node.not_mem_bare_of_canReplace hplaces hbare
      obtain ⟨t, es', rfl, -, hfold, -⟩ := r.exists_yields_foldSequence hfault hbare'
      have hfolds : r.Folds (.sequence nodes span) t.node (es ++ es') :=
        h.folds_sequence (fun _ => hfault) hfold
      have hfinish : r.finish (.sequence nodes span) kids = _ :=
        h.finish_sequence hnodes hlength hkept fun _ => hfault
      have hnode := (Grouping.overOperands_of_elements hfault hbare').node
      refine ⟨t.node, es', ?_, hfolds, hnode.1, fun heq => absurd heq hnode.2⟩
      rw [hfinish, Node.containsSequence_sequence, ← List.append_nil es']
      exact hfold.bind (yields_pure _)
    | _ => cases hseq

/-- A well-formed tree folds to a node that can stand in its place. -/
theorem exists_folds (r : Registry) (h : n.WellFormed) :
    ∃ m es, r.Folds n m es ∧ m.CanReplace n := by
  induction n using Node.children_induction with
  | step n ih =>
    obtain ⟨ms, es, hall, hplaces⟩ :=
      r.exists_foldsAll fun kid hkid => ih kid hkid (h.child hkid)
    obtain ⟨kids, -, hnodes, hlength, hkept⟩ := hall.exists_yields
    obtain ⟨m, es', -, hfolds, hplace⟩ := hall.exists_finish h hplaces hnodes hlength hkept
    exact ⟨m, es ++ es', hfolds, hplace⟩

/-! ## Files -/

/-- What an entry of a file folds to on its own; a declaration stays as it is. -/
def foldItem (r : Registry) : Item Node → Except Halt (Outcome (Item Node))
  | .declaration d => pure ⟨.declaration d, []⟩
  | .node n => do
    let folded ← (r.foldTree n).collect
    pure ⟨.node folded.value.node, folded.errors⟩

/-- The entries of a file fold one by one. -/
theorem mapM_foldItem {items : List (Item Node)}
    (h : ∀ n ∈ items.filterMap Item.node?, ∃ m es, r.Folds n m es) :
    ∃ parts, items.mapM r.foldItem = .ok parts ∧
      r.recursiveFoldItems items = .ok ⟨parts.map (·.value), parts.flatMap (·.errors)⟩ ∧
      parts.map (·.value.declaration?) = items.map Item.declaration? := by
  -- on the items, of which only the nodes are folded
  induction items with
  | nil => exact ⟨[], rfl, rfl, rfl⟩
  | cons item rest ih =>
    cases item with
    | declaration d =>
      obtain ⟨parts, hparts, hrest, hsame⟩ := ih h
      refine ⟨⟨.declaration d, []⟩ :: parts, ?_, ?_, ?_⟩
      · rw [List.mapM_cons, hparts]
        rfl
      · rw [recursiveFoldItems, hrest]
        rfl
      · rw [List.map_cons, List.map_cons, hsame]
    | node n =>
      obtain ⟨m, es, hn⟩ := h n List.mem_cons_self
      obtain ⟨parts, hparts, hrest, hsame⟩ := ih fun m hm => h m (List.mem_cons_of_mem _ hm)
      refine ⟨⟨.node m, es⟩ :: parts, ?_, ?_, ?_⟩
      · rw [List.mapM_cons, foldItem, hn.yields_foldTree.collect, hparts]
        rfl
      · rw [recursiveFoldItems, hn.recursiveFold_eq, hrest]
        rfl
      · rw [List.map_cons, List.map_cons, hsame]
        rfl

/-- **The fold of a tree is the recursion on it.** Over a well-formed tree the fold has a result,
and its tree and errors are those of the recursion. Of a file the entries fold one by one, with the
errors of one after the other, and every declaration stays where it is. -/
theorem foldTree_eq_recursiveFold (r : Registry) (h : n.WellFormed) :
    ∃ outcome, (r.foldTree n).collect = .ok outcome ∧
      r.recursiveFold n = .ok ⟨outcome.value.node, outcome.errors⟩ ∧
      ∀ items file span, n = .sourceFile items file span →
        ∃ parts, items.mapM r.foldItem = .ok parts ∧
          outcome.value.node = .sourceFile (parts.map (·.value)) file span ∧
          outcome.errors = parts.flatMap (·.errors) ∧
          parts.map (·.value.declaration?) = items.map Item.declaration? := by
  obtain ⟨m, es, hfolds, -⟩ := r.exists_folds h
  have hrec := hfolds.recursiveFold_eq
  refine ⟨_, hfolds.yields_foldTree.collect, hrec, ?_⟩
  -- the recursion over the items of a file meets the same folds as the calls item by item
  rintro items file span rfl
  have hnodes : ∀ n ∈ items.filterMap Item.node?, ∃ m es, r.Folds n m es := by
    intro n hn
    obtain ⟨m, es, hfolds, -⟩ := r.exists_folds (h.child hn)
    exact ⟨m, es, hfolds⟩
  obtain ⟨parts, hparts, hitems, hsame⟩ := mapM_foldItem hnodes
  rw [recursiveFold, hitems] at hrec
  cases hrec
  exact ⟨parts, hparts, rfl, rfl, hsame⟩

/-- The entries of `v + (w ~ x * y) ? z`, a declaration of `?`, and `v ~ w ~ x`. -/
def nestedEntries : List (Item Node) :=
  [.node (.statement (.sequence [.name "v" .unknown, .operator ⟨"+", .unknown⟩,
      .paren (.sequence [.name "w" .unknown, .operator ⟨"~", .unknown⟩, .name "x" .unknown,
        .operator ⟨"*", .unknown⟩, .name "y" .unknown] .unknown) .unknown,
      .operator ⟨"?", .unknown⟩, .name "z" .unknown] .unknown) .unknown),
    .declaration (.operator { name := "?" }),
    .node (.statement (.sequence [.name "v" .unknown, .operator ⟨"~", .unknown⟩,
      .name "w" .unknown, .operator ⟨"~", .unknown⟩, .name "x" .unknown] .unknown) .unknown)]

/-- The file of these entries. -/
def nestedFile : Node := .sourceFile nestedEntries none .unknown

/-- The sequence in parens reports its error before the one around it does. -/
theorem foldTree_nestedFile :
    nestedFile.WellFormed ∧ ∃ outcome parts, (unrelated.foldTree nestedFile).collect = .ok outcome ∧
      unrelated.recursiveFold nestedFile = .ok ⟨outcome.value.node, outcome.errors⟩ ∧
      nestedEntries.mapM unrelated.foldItem = .ok parts ∧
      outcome.value.node = .sourceFile (parts.map (·.value)) none .unknown ∧
      outcome.errors = parts.flatMap (·.errors) ∧
      outcome.errors = [.incomparableOperators ⟨"~", .unknown⟩ "apart" ⟨"*", .unknown⟩ "high",
        .missingOperator "?" .unknown,
        .incomparableOperators ⟨"~", .unknown⟩ "apart" ⟨"~", .unknown⟩ "apart"] := by
  have hfile : nestedFile.WellFormed := by
    simp [nestedFile, nestedEntries, Item.node?, Node.sequenceFault, Node.misplacedFrom,
      Node.isOperator]
  obtain ⟨outcome, hrun, hrec, hentries⟩ := foldTree_eq_recursiveFold unrelated hfile
  obtain ⟨parts, hparts, hvalue, herrors, -⟩ := hentries nestedEntries none .unknown rfl
  refine ⟨hfile, outcome, parts, hrun, hrec, hparts, hvalue, herrors, ?_⟩
  rw [← Reporting.errors_of_collect hrun]
  decide +kernel

end Registry

end OperatorFold
