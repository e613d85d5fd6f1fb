import OperatorFold.Proofs.Fold.Sequence
import OperatorFold.Proofs.Fold.Tree

/-! # What folds come to

A fold has no result where an operation would stand at a bare node, and where the elements of a
sequence do not alternate. Neither is ruled out here: over any elements and any tree a fold comes to
an end of its own, with a result or a fault, whatever the limit on errors is.

So a result tells how it came about. That of a sequence is a grouping of its elements
(`ends_foldSequence`). That of a tree is made of the results of its children (`Folds.inv`), which
gives the induction by which later statements follow a fold down the tree.
-/

namespace OperatorFold.Registry

open Reporting Grouping

/-! ## Sequences -/

section Sequence

variable (r : Registry)

/-- Two operands on top are combined, unless the left one has no span to hand on. -/
theorem combine_orFaults (p : OperatorUse) (left t : Grouping Node OperatorUse)
    (operands : List Node) :
    YieldsOrFaults (ofExcept ((r.pending p).combine (t.node :: left.node :: operands)))
      ((operation left p t).node :: operands) [] := by
  rw [Pending.combine]
  cases hspan : left.node.span? with
  | none => exact (faults_halt _).orFaults _ _
  | some span =>
    rw [node, hspan]
    exact (yields_pure _).orFaults

/-- What waits is combined in front of an operator, unless a span is missing. -/
theorem settle_orFaults (o : OperatorUse) (below : Waiting Node OperatorUse)
    (t : Grouping Node OperatorUse) :
    YieldsOrFaults (r.settle (r.pending o) (r.pendingOf below) (t.node :: operandsOf below))
      (r.pendingOf (Grouping.settle r.combines o below t).1,
        (Grouping.settle r.combines o below t).2.node ::
          operandsOf (Grouping.settle r.combines o below t).1)
      (r.settleErrors o below) := by
  induction below generalizing t with
  | nil => exact (yields_pure _).orFaults
  | cons entry below ih =>
    obtain ⟨left, p⟩ := entry
    refine (r.yields_shouldCombine p o).orFaults.bind ?_
    rw [Grouping.settle]
    cases r.combines p o with
    | false => exact (yields_pure _).orFaults
    | true => exact (r.combine_orFaults p left t (operandsOf below)).bind (ih (operation left p t))

/-- At the end all that waits is combined, unless a span is missing. -/
theorem drain_orFaults (below : Waiting Node OperatorUse) (t : Grouping Node OperatorUse) :
    YieldsOrFaults (drain (r.pendingOf below) (t.node :: operandsOf below))
      [(plug below t).node] [] := by
  induction below generalizing t with
  | nil => exact (yields_pure _).orFaults
  | cons entry below ih =>
    obtain ⟨left, p⟩ := entry
    exact (r.combine_orFaults p left t (operandsOf below)).bind (ih (operation left p t))

/-- A scan reads operators with an operand behind each, or it has a fault. -/
theorem scan_orFaults : ∀ (elements : List Node) (below : Waiting Node OperatorUse)
    (t : Grouping Node OperatorUse),
    (∃ rest, elements = Node.spell rest ∧
      YieldsOrFaults (r.scan elements (r.pendingOf below) (t.node :: operandsOf below))
        [(Grouping.scan r.combines rest below t).node] (r.scanErrors rest below t)) ∨
    ((∀ rest, elements ≠ Node.spell rest) ∧ ∃ fault es,
      Faults (r.scan elements (r.pendingOf below) (t.node :: operandsOf below)) fault es)
  | [], below, t => .inl ⟨[], rfl, r.drain_orFaults below t⟩
  -- an operator without an operand behind it breaks the alternation
  | [n], _, _ => by
    refine .inr ⟨fun rest h => ?_, .brokenAlternation, [], ?_⟩
    · cases rest <;> cases h
    · cases n <;> exact faults_halt _
  | first :: n :: more, below, t => by
    cases first with
    | operator use =>
      have hlevel := (r.yields_levelOf use).orFaults
      have hsettled := r.settle_orFaults use below t
      -- the others are scanned behind what the operator leaves waiting
      rcases scan_orFaults more (((Grouping.settle r.combines use below t).2, use) ::
        (Grouping.settle r.combines use below t).1) (operand n) with
        ⟨rest, rfl, hmore⟩ | ⟨hne, hmore⟩
      · exact .inl ⟨(use, n) :: rest, rfl, hlevel.bind (hsettled.bind hmore)⟩
      · refine .inr ⟨fun rest h => ?_, hlevel.bind_faults (hsettled.bind_faults hmore)⟩
        rcases rest with _ | ⟨entry, rest⟩
        · cases h
        · injection h with _ h
          injection h with _ h
          exact hne rest h
    | _ =>
      refine .inr ⟨fun rest h => ?_, .brokenAlternation, [], faults_halt _⟩
      cases rest <;> cases h

/-- A fold of operands and operators in turn yields their grouping, unless an operation would stand
at a bare node. -/
theorem foldSequence_orFaults (first : Node) (rest : List (OperatorUse × Node)) :
    YieldsOrFaults (r.foldSequence (first :: Node.spell rest)) (r.grouping first rest).node
      (r.foldErrors first rest) := by
  rcases r.scan_orFaults (Node.spell rest) [] (operand first) with ⟨rest', heq, hscan⟩ | ⟨hne, -⟩
  · obtain rfl := Node.spell_injective heq
    rcases hscan with hyields | ⟨fault, es, hes, hfaults⟩
    · rw [← List.append_nil (r.foldErrors first rest)]
      refine .inl (yields_errorCount_bind fun before => ?_)
      refine hyields.bind (yields_errorCount_bind fun after => ?_)
      exact (yields_log _).bind (yields_pure _)
    · exact .inr ⟨fault, es, hes, agrees_errorCount_bind fun before => hfaults.bind _⟩
  · exact absurd rfl (hne rest)

/-- So does a fold of the elements of a settled grouping. -/
theorem foldSequence_orFaults_of_settled {t : Grouping Node OperatorUse}
    (ht : t.Settled r.combines) :
    YieldsOrFaults (r.foldSequence t.elements) t.node (r.foldErrors t.first t.rest) := by
  have hfold := r.foldSequence_orFaults t.first t.rest
  rw [grouping_of_settled ht, ← elements_eq] at hfold
  exact hfold

/-- Whatever its elements are, a fold that has a result makes a grouping of them. -/
theorem ends_foldSequence (elements : List Node) :
    Ends (r.foldSequence elements)
      (fun m => ∃ t : Grouping Node OperatorUse, t.elements = elements ∧ t.node = m) := by
  cases elements with
  | nil => exact (faults_halt _).ends
  | cons first rest =>
    rcases r.scan_orFaults rest [] (operand first) with ⟨rest, rfl, -⟩ | ⟨-, fault, es, hscan⟩
    · exact (r.foldSequence_orFaults first rest).ends
        ⟨r.grouping first rest, r.elements_grouping first rest, rfl⟩
    · have hfold : Faults (r.foldSequence (first :: rest)) fault es :=
        agrees_errorCount_bind fun before => hscan.bind _
      exact hfold.ends

end Sequence

/-! ## Trees -/

variable {r : Registry} {n m : Node} {nodes ms : List Node} {es es' : List PrecedenceError}

/-- What a node becomes over finished children, and the errors of it: a sequence is folded, and any
other node has them for its children. -/
inductive Becomes (r : Registry) : Node → List Node → Node → List PrecedenceError → Prop
  | sequence {elements ms : List Node} {span : Span} {m : Node} {es : List PrecedenceError}
      (h : Yields (r.foldSequence ms) m es) : Becomes r (.sequence elements span) ms m es
  | other {n m : Node} {ms : List Node} (hseq : n.isSequence = false)
      (h : n.withChildren ms = .ok m) : Becomes r n ms m []

/-- New elements out of place are a fault of the sequence. -/
theorem faults_finish {kids : List Substitute} {span : Span} {misplaced : SequenceError}
    (hlength : kids.length = nodes.length) (hall : kids.all (·.kept) = false)
    (hfault : Node.sequenceFault (kids.map (·.node)) = some misplaced) :
    Faults (r.finish (.sequence nodes span) kids) (.sequence misplaced) [] := by
  have hne : (Node.sequence nodes span).children ≠ [] := by
    rintro rfl
    rw [List.length_eq_zero_iff.mp hlength] at hall
    cases hall
  have hreplace : (Node.sequence nodes span).replaceChildren kids =
      .error (.sequence misplaced) := by
    rw [Node.replaceChildren_eq hne hlength, hall, Node.withChildren, Node.sequence?, hfault]
    rfl
  rw [finish, if_neg (by rw [List.isEmpty_iff]; exact hne), hreplace]
  exact (faults_halt _).bind _

/-- A node has a fold or a fault. -/
def FoldsOrFaults (r : Registry) (n : Node) : Prop :=
  (∃ m es, r.Folds n m es) ∨ ∃ fault es, Faults (r.foldNode n) fault es

/-- If each of some nodes folds or meets a fault, all of them fold, or a first one meets a fault. -/
theorem foldsAll_or_faults (h : ∀ n ∈ nodes, r.FoldsOrFaults n) :
    (∃ ms es, r.FoldsAll nodes ms es) ∨ ∃ fault es, Faults (nodes.mapM r.foldNode) fault es := by
  induction nodes with
  | nil => exact .inl ⟨[], [], .nil⟩
  | cons n rest ih =>
    rw [List.mapM_cons]
    rcases h n List.mem_cons_self with ⟨m, es, hn⟩ | ⟨fault, es, hfaults⟩
    · rcases ih fun m hm => h m (List.mem_cons_of_mem _ hm) with
        ⟨ms, es', hrest⟩ | ⟨fault, es', hfaults⟩
      · exact .inl ⟨m :: ms, es ++ es', .cons hn hrest⟩
      · exact .inr ⟨fault, _, hn.yields.bind_faults (hfaults.bind _)⟩
    · exact .inr ⟨fault, es, hfaults.bind _⟩

/-- Once its elements have folded, a sequence folds to the fold of what they are then, or it has a
fault. -/
theorem FoldsAll.sequence_or_faults (h : r.FoldsAll nodes ms es) (span : Span) :
    (∃ m es', r.Folds (.sequence nodes span) m (es ++ es') ∧ Yields (r.foldSequence ms) m es') ∨
      ∃ fault es', Faults (r.foldNode (.sequence nodes span)) fault es' := by
  obtain ⟨kids, hyields, hnodes, hlength, hkept⟩ := h.exists_yields
  rw [foldNode_eq]
  -- a sequence that is rebuilt must still alternate; one that is kept is not looked at
  by_cases hok : nodes.any Node.containsSequence = true → Node.sequenceFault ms = none
  · rcases r.ends_foldSequence ms with ⟨m, es', hfold, -⟩ | ⟨fault, es', hfaults⟩
    · exact .inl ⟨m, es', h.folds_sequence hok hfold, hfold⟩
    · refine .inr ⟨fault, es ++ es', hyields.bind_faults ?_⟩
      have hfinish : r.finish (.sequence nodes span) kids = _ :=
        h.finish_sequence hnodes hlength hkept hok
      rw [hfinish]
      exact hfaults.bind _
  · obtain ⟨hany, hne⟩ := Classical.not_imp.mp hok
    obtain ⟨misplaced, hfault⟩ := Option.ne_none_iff_exists'.mp hne
    have hall : kids.all (·.kept) = false := by rw [hkept, hany, Bool.not_true]
    have hfaults : Faults (r.finish (.sequence nodes span) kids) (.sequence misplaced) [] :=
      faults_finish hlength hall (hnodes ▸ hfault)
    exact .inr ⟨_, _, hyields.bind_faults hfaults⟩

/-- Once its children have folded, a node becomes what it is over them, or it has a fault. -/
theorem FoldsAll.becomes_or_faults (h : r.FoldsAll n.children ms es) :
    (∃ m es', r.Folds n m (es ++ es') ∧ r.Becomes n ms m es') ∨
      ∃ fault es', Faults (r.foldNode n) fault es' := by
  cases hseq : n.isSequence with
  | false =>
    obtain ⟨m, hm⟩ := Node.exists_withChildren hseq ms
    refine .inl ⟨m, [], ?_, .other hseq hm⟩
    rw [List.append_nil]
    exact h.folds hseq hm
  | true =>
    cases n with
    | sequence nodes span =>
      rcases h.sequence_or_faults span with ⟨m, es', hfolds, hfold⟩ | hfaults
      · exact .inl ⟨m, es', hfolds, .sequence hfold⟩
      · exact .inr hfaults
    | _ => cases hseq

/-- Every node folds or meets a fault. -/
theorem folds_or_faults (r : Registry) (n : Node) : r.FoldsOrFaults n := by
  induction n using Node.children_induction with
  | step n ih =>
    rcases foldsAll_or_faults ih with ⟨ms, es, hall⟩ | ⟨fault, es, hfaults⟩
    · rcases hall.becomes_or_faults with ⟨m, es', hfolds, -⟩ | hfaults
      · exact .inl ⟨m, _, hfolds⟩
      · exact .inr hfaults
    · refine .inr ⟨fault, es, ?_⟩
      rw [foldNode_eq]
      exact hfaults.bind _

/-- A node has at most one fold. -/
theorem Folds.unique {m' : Node} (h : r.Folds n m es) (h' : r.Folds n m' es') :
    m' = m ∧ es' = es := by
  have hcollect := h'.yields.collect.symm.trans h.yields.collect
  cases hcollect
  exact ⟨rfl, rfl⟩

/-- What a node folds to, it becomes over what its children fold to. -/
theorem Folds.inv (h : r.Folds n m es) :
    ∃ ms es₁ es₂, r.FoldsAll n.children ms es₁ ∧ r.Becomes n ms m es₂ ∧ es = es₁ ++ es₂ := by
  rcases foldsAll_or_faults fun kid _ => r.folds_or_faults kid with
    ⟨ms, es₁, hall⟩ | ⟨fault, es₁, hfaults⟩
  · rcases hall.becomes_or_faults with ⟨m', es₂, hfolds, hbecomes⟩ | ⟨fault, es₂, hfaults⟩
    · obtain ⟨rfl, rfl⟩ := h.unique hfolds
      exact ⟨ms, es₁, es₂, hall, hbecomes, rfl⟩
    · exact absurd hfaults h.yields.not_faults
  · have hnode : Faults (r.foldNode n) fault es₁ := by
      rw [foldNode_eq]
      exact hfaults.bind _
    exact absurd hnode h.yields.not_faults

end OperatorFold.Registry
