import OperatorFold.Proofs.Fold.Outcome
import OperatorFold.Proofs.Fold.Shape
import OperatorFold.Proofs.Tree.Within

/-! # Folded trees

Where a fold has a result, no sequence is left in it: a node is put together over results without
sequences, and so is a grouping of elements without sequences. A tree without sequences is in turn
what its own fold keeps, so a second fold changes nothing.

The same goes for every part of a tree, since the fold of a tree is made of the folds of its parts
(`Folds.within`). A part is kept exactly if there is no sequence in it.
-/

namespace OperatorFold

open Reporting

/-! ## Sequences in what is put together -/

/-- The sequences in the tree of a grouping are those in the elements. -/
theorem Grouping.containsSequence_node (t : Grouping Node OperatorUse) :
    t.node.containsSequence = t.elements.any Node.containsSequence := by
  induction t with
  | operand n => rw [node, elements, List.any_cons, List.any_nil, Bool.or_false]
  | operation left use right ihl ihr =>
    rw [node, Node.containsSequence_eq, Node.children, elements, List.any_append, List.any_cons,
      List.any_cons, List.any_cons, List.any_nil, Bool.or_false, ihl, ihr]
    rfl

namespace Registry

variable {r : Registry} {n m s : Node} {nodes ms : List Node} {es : List PrecedenceError}

/-! ## The folds of parts -/

theorem FoldsAll.length_eq (h : r.FoldsAll nodes ms es) : ms.length = nodes.length := by
  induction h with
  | nil => rfl
  | cons _ _ ih => rw [List.length_cons, List.length_cons, ih]

/-- If some nodes fold, each of them does. -/
theorem FoldsAll.exists_folds_of_mem (h : r.FoldsAll nodes ms es) (hn : n ∈ nodes) :
    ∃ m es, r.Folds n m es := by
  induction h with
  | nil => cases hn
  | cons hfirst _ ih =>
    rcases List.mem_cons.mp hn with rfl | hn
    · exact ⟨_, _, hfirst⟩
    · exact ih hn

/-- Every result is what one of the nodes folds to. -/
theorem FoldsAll.exists_folds_of_mem_result (h : r.FoldsAll nodes ms es) (hm : m ∈ ms) :
    ∃ n ∈ nodes, ∃ es, r.Folds n m es := by
  induction h with
  | nil => cases hm
  | cons hfirst _ ih =>
    rcases List.mem_cons.mp hm with rfl | hm
    · exact ⟨_, List.mem_cons_self, _, hfirst⟩
    · obtain ⟨n, hn, hfolds⟩ := ih hm
      exact ⟨n, List.mem_cons_of_mem _ hn, hfolds⟩

/-- Where a tree folds, every part of it folds on its own. -/
theorem Folds.within (h : r.Folds n m es) (hs : s.Within n) : ∃ m es, r.Folds s m es := by
  induction hs generalizing m es with
  | refl => exact ⟨m, es, h⟩
  | tail _ hkid ih =>
    obtain ⟨_, _, _, hall, -, -⟩ := h.inv
    obtain ⟨_, _, hfolds⟩ := hall.exists_folds_of_mem hkid
    exact ih hfolds

/-- Nodes that fold one by one have their outcomes in a row. -/
theorem FoldsAll.exists_mapM_collect (h : r.FoldsAll nodes ms es) :
    ∃ kids, nodes.mapM (fun n => (r.foldTree n).collect) = .ok kids ∧
      kids.map (·.value.node) = ms := by
  induction h with
  | nil => exact ⟨[], rfl, rfl⟩
  | @cons n m _ _ es _ hn _ ih =>
    obtain ⟨kids, hkids, hnodes⟩ := ih
    refine ⟨⟨⟨m, !n.containsSequence⟩, es⟩ :: kids, ?_, ?_⟩
    · rw [List.mapM_cons, hn.yields_foldTree.collect, hkids]
      rfl
    · rw [List.map_cons, hnodes]

/-- Where the fold of a tree has a result, the tree folds to it. -/
theorem folds_of_collect {outcome : Outcome Substitute}
    (h : (r.foldTree n).collect = .ok outcome) :
    r.Folds n outcome.value.node outcome.errors ∧ outcome.value.kept = !n.containsSequence := by
  rcases r.folds_or_faults n with ⟨m, es, hfolds⟩ | ⟨fault, es, hfaults⟩
  · rw [hfolds.yields_foldTree.collect] at h
    cases h
    exact ⟨hfolds, rfl⟩
  · rw [foldTree_eq_foldNode, hfaults.collect] at h
    cases h

/-! ## Normal forms -/

/-- What a node becomes over children without sequences has none. -/
theorem Becomes.normal (h : r.Becomes n ms m es) (hlength : ms.length = n.children.length)
    (hms : ∀ m ∈ ms, m.containsSequence = false) : m.containsSequence = false := by
  have hany : ms.any Node.containsSequence = false := by
    rw [List.any_eq_false]
    intro m hm
    rw [hms m hm]
    exact Bool.false_ne_true
  cases h with
  | sequence hfold =>
    obtain ⟨t, helements, rfl⟩ := (r.ends_foldSequence ms).of_yields hfold
    rw [t.containsSequence_node, helements]
    exact hany
  | other hseq hm =>
    rw [Node.containsSequence_eq, Node.isSequence_of_withChildren hseq hm,
      (Node.of_withChildren hlength hm).1, Bool.false_or]
    exact hany

/-- No sequence is left in what a tree folds to. -/
theorem Folds.normal (h : r.Folds n m es) : m.containsSequence = false := by
  induction n using Node.children_induction generalizing m es with
  | step n ih =>
    obtain ⟨ms, es₁, es₂, hall, hbecomes, -⟩ := h.inv
    refine hbecomes.normal hall.length_eq ?_
    intro m hm
    obtain ⟨kid, hkid, _, hfolds⟩ := hall.exists_folds_of_mem_result hm
    exact ih kid hkid hfolds

/-- A tree folds to itself exactly if there is no sequence in it. -/
theorem Folds.eq_iff (h : r.Folds n m es) : m = n ↔ n.containsSequence = false := by
  constructor
  · rintro rfl
    exact h.normal
  · exact h.eq_of_kept

/-- **A fold makes a normal form and changes no more than it has to.** Where the fold of a tree has
a result, no sequence is left in it, and to fold it again keeps it and reports nothing. Every part
of the tree folds as well. It is kept, and is what it was, exactly if there is no sequence in it.
The folds of its children take the places of these in it, or are grouped if it is a sequence. -/
theorem foldTree_normal (r : Registry) {outcome : Outcome Substitute}
    (h : (r.foldTree n).collect = .ok outcome) :
    (∀ m : Node, m.containsSequence = true ↔ ∃ s : Node, s.Within m ∧ s.isSequence = true) ∧
      outcome.value.node.containsSequence = false ∧
      (r.foldTree outcome.value.node).collect = .ok ⟨⟨outcome.value.node, true⟩, []⟩ ∧
      ∀ s : Node, s.Within n → ∃ folded kids, (r.foldTree s).collect = .ok folded ∧
        (folded.value.kept = true ↔ s.containsSequence = false) ∧
        (folded.value.node = s ↔ s.containsSequence = false) ∧
        s.children.mapM (fun kid => (r.foldTree kid).collect) = .ok kids ∧
        (s.isSequence = false →
          s.withChildren (kids.map (·.value.node)) = .ok folded.value.node ∧
            folded.value.node.children = kids.map (·.value.node)) ∧
        (s.isSequence = true → ∃ t : Grouping Node OperatorUse,
          t.elements = kids.map (·.value.node) ∧ t.node = folded.value.node) := by
  obtain ⟨hfolds, -⟩ := folds_of_collect h
  -- a fold contains no sequence, and a tree without one is kept
  have hagain := r.folds_of_not_containsSequence outcome.value.node hfolds.normal
  refine ⟨Node.containsSequence_iff, hfolds.normal, ?_, ?_⟩
  · rw [hagain.yields_foldTree.collect, hfolds.normal]
    rfl
  · intro s hs
    obtain ⟨m, es, hpart⟩ := hfolds.within hs
    obtain ⟨ms, es₁, es₂, hall, hbecomes, -⟩ := hpart.inv
    obtain ⟨kids, hkids, rfl⟩ := hall.exists_mapM_collect
    refine ⟨_, kids, hpart.yields_foldTree.collect, ?_, hpart.eq_iff, hkids, ?_, ?_⟩
    · show (!s.containsSequence) = true ↔ _
      rw [Bool.not_eq_true']
    · intro hseq
      cases hbecomes with
      | sequence hfold => cases hseq
      | other _ hm => exact ⟨hm, (Node.of_withChildren hall.length_eq hm).1⟩
    · intro hseq
      cases hbecomes with
      | sequence hfold => exact (r.ends_foldSequence _).of_yields hfold
      | other hnone _ =>
        rw [hseq] at hnone
        cases hnone

/-- The statement `(v)`. -/
def foldedStatement : Node := .statement (.paren (.name "v" .unknown) .unknown) .unknown

/-- The file of `(v)`, a declaration of `?`, and an operation `v + …` over a right part. -/
def fileAround (right : Node) : Node :=
  .sourceFile [.node foldedStatement, .declaration (.operator { name := "?" }),
    .node (.statement (.binary (.name "v" .unknown) (.operator ⟨"+", .unknown⟩) right .unknown)
      .unknown)] none .unknown

/-- A sequence inside an operation: it multiplies the one element of a sequence in it with the one
of a sequence in parens. -/
def layers : Node :=
  .sequence [.sequence [.name "w" .unknown] .unknown, .operator ⟨"*", .unknown⟩,
    .paren (.sequence [.name "x" .unknown] .unknown) .unknown] .unknown

/-- The operation that is left of it. -/
def foldedLayers : Node :=
  .binary (.name "w" .unknown) (.operator ⟨"*", .unknown⟩)
    (.paren (.name "x" .unknown) .unknown) .unknown

/-- Sequences of one element make way for it, and the statement beside them is kept. -/
theorem foldTree_layers :
    ∃ outcome, (unrelated.foldTree (fileAround layers)).collect = .ok outcome ∧
      outcome.value.node.containsSequence = false ∧
      (unrelated.foldTree outcome.value.node).collect = .ok ⟨⟨outcome.value.node, true⟩, []⟩ ∧
      outcome.value.node.alike (fileAround foldedLayers) = true ∧
      ∃ folded, (unrelated.foldTree foldedStatement).collect = .ok folded ∧
        folded.value.kept = true ∧ folded.value.node = foldedStatement := by
  have hresult : (unrelated.foldTree (fileAround layers)).collect.isOk = true := by decide +kernel
  rcases hrun : (unrelated.foldTree (fileAround layers)).collect with halted | outcome
  · rw [hrun] at hresult
    cases hresult
  obtain ⟨-, hnone, hagain, hparts⟩ := foldTree_normal unrelated hrun
  refine ⟨outcome, rfl, hnone, hagain, ?_, ?_⟩
  · rw [← value_of_collect hrun]
    decide +kernel
  · have hwithin : foldedStatement.Within (fileAround layers) :=
      foldedStatement.within_self.of_child List.mem_cons_self
    have hfree : foldedStatement.containsSequence = false := by decide +kernel
    obtain ⟨folded, _, hfolded, hkept, hsame, -⟩ := hparts foldedStatement hwithin
    exact ⟨folded, hfolded, hkept.mpr hfree, hsame.mpr hfree⟩

end Registry

end OperatorFold
