import OperatorFold.Proofs.Fold.Normal
import OperatorFold.Proofs.Fold.Recursion

/-! # Folding one tree with two registries

Only the sequences of a tree are folded by the rules of a registry; everything around them is put
together in the same way whatever the registry. So if every sequence that can arise from a tree
folds alike with two registries, the tree does (`Folds.transfer`). What "alike" says of the errors
is left open: any relation of error lists that holds of lists put in a row will do.

The sequences that arise are those of the tree with their operands folded. Their operators are the
operators of the tree, since an operator stays what it is (`FoldsAll.operator_mem`).
-/

namespace OperatorFold

open Reporting

/-- An operator stands in a sequence of a tree. -/
def Node.Uses (n : Node) (use : OperatorUse) : Prop :=
  ∃ elements span, (sequence elements span).Within n ∧ .operator use ∈ elements

theorem Node.Uses.of_child {n kid : Node} {use : OperatorUse} (h : kid.Uses use)
    (hkid : kid ∈ n.children) : n.Uses use := by
  obtain ⟨elements, span, hwithin, hmem⟩ := h
  exact ⟨elements, span, hwithin.of_child hkid, hmem⟩

namespace Registry

variable {r r' : Registry} {n m : Node} {nodes ms : List Node} {es : List PrecedenceError}

/-! ## What stands in the place of what -/

/-- A fold can take the place of its node. -/
theorem Folds.canReplace (h : r.Folds n m es) (hn : n.WellFormed) : m.CanReplace n := by
  obtain ⟨m', es', hfolds, hplace⟩ := r.exists_folds hn
  rw [(hfolds.unique h).1]
  exact hplace

theorem FoldsAll.canReplace (h : r.FoldsAll nodes ms es) (hn : ∀ n ∈ nodes, n.WellFormed) :
    List.Forall₂ Node.CanReplace ms nodes := by
  induction h with
  | nil => exact .nil
  | cons hfirst _ ih =>
    refine .cons (hfirst.canReplace (hn _ List.mem_cons_self)) (ih fun n hmem => ?_)
    exact hn n (List.mem_cons_of_mem _ hmem)

/-- The operators among the folds of some nodes stood among the nodes. -/
theorem FoldsAll.operator_mem {use : OperatorUse} (h : r.FoldsAll nodes ms es)
    (hn : ∀ n ∈ nodes, n.WellFormed) (huse : .operator use ∈ ms) : .operator use ∈ nodes := by
  obtain ⟨n, hmem, es, hfolds⟩ := h.exists_folds_of_mem_result huse
  have hoperator : n.isOperator = true := (hfolds.canReplace (hn n hmem)).1.symm
  cases n with
  | operator use' =>
    rw [hfolds.operator]
    exact hmem
  | _ => cases hoperator

/-! ## Folding alike -/

/-- Sequences over operators of which `U` holds, if they fold with one registry to errors of which
`P` holds, fold with another one to the same node, with errors that stand in a relation to those. -/
def FoldsAlike (r r' : Registry) (U : OperatorUse → Prop) (P : PrecedenceError → Prop)
    (Q : List PrecedenceError → List PrecedenceError → Prop) : Prop :=
  ∀ elements m es, Node.sequenceFault elements = none → .bare ∉ elements →
    (∀ use, .operator use ∈ elements → U use) → Yields (r.foldSequence elements) m es →
    (∀ e ∈ es, P e) → ∃ es', Yields (r'.foldSequence elements) m es' ∧ Q es es'

variable {U : OperatorUse → Prop} {P : PrecedenceError → Prop}
  {Q : List PrecedenceError → List PrecedenceError → Prop}

/-- Two registries that fold some operators alike fold fewer of them alike. -/
theorem FoldsAlike.mono {U' : OperatorUse → Prop} (h : r.FoldsAlike r' U P Q)
    (hU : ∀ use, U' use → U use) : r.FoldsAlike r' U' P Q :=
  fun elements m es hseq hbare huses =>
    h elements m es hseq hbare fun use hmem => hU use (huses use hmem)

/-- Nodes fold alike one by one. -/
theorem FoldsAll.transfer (hnil : Q [] [])
    (happend : ∀ {es es' more more'}, Q es es' → Q more more' → Q (es ++ more) (es' ++ more'))
    (h : r.FoldsAll nodes ms es) (hP : ∀ e ∈ es, P e)
    (hnodes : ∀ n ∈ nodes, ∀ m es, r.Folds n m es → (∀ e ∈ es, P e) →
      ∃ es', r'.Folds n m es' ∧ Q es es') :
    ∃ es', r'.FoldsAll nodes ms es' ∧ Q es es' := by
  induction h with
  | nil => exact ⟨[], .nil, hnil⟩
  | cons hfirst _ ih =>
    obtain ⟨es', hfirst', hQ⟩ := hnodes _ List.mem_cons_self _ _ hfirst
      fun e he => hP e (List.mem_append_left _ he)
    obtain ⟨more', hrest', hQ'⟩ := ih (fun e he => hP e (List.mem_append_right _ he))
      fun n hn => hnodes n (List.mem_cons_of_mem _ hn)
    exact ⟨es' ++ more', .cons hfirst' hrest', happend hQ hQ'⟩

/-- **A tree folds alike with two registries if its sequences do.** -/
theorem Folds.transfer (hnil : Q [] [])
    (happend : ∀ {es es' more more'}, Q es es' → Q more more' → Q (es ++ more) (es' ++ more'))
    (hn : n.WellFormed) (halike : r.FoldsAlike r' n.Uses P Q) (h : r.Folds n m es)
    (hP : ∀ e ∈ es, P e) : ∃ es', r'.Folds n m es' ∧ Q es es' := by
  induction n using Node.children_induction generalizing m es with
  | step n ih =>
    obtain ⟨ms, es₁, es₂, hall, hbecomes, rfl⟩ := h.inv
    obtain ⟨es₁', hall', hQ₁⟩ := hall.transfer hnil happend
      (fun e he => hP e (List.mem_append_left _ he))
      fun kid hkid _ _ hkidFolds => ih kid hkid (hn.child hkid)
        (halike.mono fun use huse => huse.of_child hkid) hkidFolds
    cases hbecomes with
    | @sequence elements _ span _ _ hfold =>
      obtain ⟨⟨hseq, hbare⟩, hkids⟩ := Node.wellFormed_sequence.mp hn
      -- what is folded has the operators of the sequence, with its operands folded
      have hplaces := hall.canReplace hkids
      have huses : ∀ use, .operator use ∈ ms → (Node.sequence elements span).Uses use :=
        fun use huse => ⟨elements, span, Node.within_self _, hall.operator_mem hkids huse⟩
      have hfault := Node.sequenceFault_of_canReplace hplaces hseq
      obtain ⟨es₂', hfold', hQ₂⟩ := halike ms m es₂ hfault
        (Node.not_mem_bare_of_canReplace hplaces hbare) huses hfold
        fun e he => hP e (List.mem_append_right _ he)
      exact ⟨_, hall'.folds_sequence (fun _ => hfault) hfold', happend hQ₁ hQ₂⟩
    | other hnone hm =>
      refine ⟨es₁', hall'.folds hnone hm, ?_⟩
      rw [List.append_nil]
      exact hQ₁

end Registry

end OperatorFold
