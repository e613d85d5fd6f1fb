import OperatorFold.Proofs.Fold.ScanSteps
import OperatorFold.Proofs.Fold.Transfer

/-! # The fold of a tree, step by step

The fold of a tree works off its tasks in steps: it enters a node, or finishes one over the finished
nodes on top. The tasks tell whose results lie on the stack of finished nodes: when a node is to be
finished, just those of its children lie on top, and when no task is left, only that of the root is
there (`Task.LeadTo`). Each of them can stand where its node stood, since no fold of an operand is
an operator and an operator is kept. So a node always gets as many children as it had, and a
sequence always gets elements that alternate (`Registry.Ready`). No step of the fold fails then, nor
does one of the scans that it makes on its way.
-/

namespace OperatorFold

open Reporting

/-! ## Steps -/

/-- Where the fold of a tree has got to: what is left to do, and the finished nodes, last first. -/
structure WorkState where
  tasks : List Task
  done : List Substitute := []

namespace WorkState

def start (n : Node) : WorkState := { tasks := [.enter n] }

/-- The part of the fold that is still to come. -/
def resume (r : Registry) (s : WorkState) : Reporting (List Substitute) := r.work s.tasks s.done

end WorkState

namespace Registry

/-- One step of the fold of a tree. There is none where a node cannot be finished. -/
inductive WorkStep (r : Registry) : WorkState → WorkState → Prop
  | enter {n : Node} {tasks : List Task} {done : List Substitute} :
      WorkStep r ⟨.enter n :: tasks, done⟩ ⟨n.children.map .enter ++ .leave n :: tasks, done⟩
  | leave {n : Node} {tasks : List Task} {done : List Substitute} {finished : Substitute}
      {es : List PrecedenceError}
      (h : Yields (r.finish n (done.take n.children.length).reverse) finished es) :
      WorkStep r ⟨.leave n :: tasks, done⟩ ⟨tasks, finished :: done.drop n.children.length⟩

variable {r : Registry} {s t : WorkState}

/-- What the fold comes to after a step, it comes to before. -/
theorem WorkStep.yields {results : List Substitute} {es : List PrecedenceError}
    (h : r.WorkStep s t) (ht : Yields (t.resume r) results es) :
    ∃ es', Yields (s.resume r) results (es' ++ es) := by
  cases h with
  | enter =>
    refine ⟨[], ?_⟩
    rw [WorkState.resume, work]
    exact ht
  | @leave n tasks done finished es' hfinish =>
    refine ⟨es', ?_⟩
    rw [WorkState.resume, work]
    exact hfinish.bind ht

/-- Every step leaves less to do. -/
theorem WorkStep.weight_lt (h : r.WorkStep s t) :
    Task.totalWeight t.tasks < Task.totalWeight s.tasks := by
  cases h with
  | @enter n tasks done =>
    have hkids := n.totalSize_children_lt
    simp only [Task.totalWeight_append, Task.totalWeight, Task.totalWeight_enter, Task.weight]
    omega
  | leave => simp only [Task.totalWeight, Task.weight]; omega

/-! ## Finishing a node over its children -/

/-- A finished node is what its node folds to; it is kept if no sequence is left in the node. -/
structure Finished (r : Registry) (s : Substitute) (n : Node) : Prop where
  folds : ∃ es, r.Folds n s.node es
  kept : s.kept = !n.containsSequence

section Finish

variable {n : Node} {nodes : List Node} {kids : List Substitute}

/-- Finished nodes are folds, and all are kept if there was no sequence in them. -/
theorem exists_foldsAll_of_finished (h : List.Forall₂ r.Finished kids nodes) :
    ∃ es, r.FoldsAll nodes (kids.map (·.node)) es ∧
      kids.all (·.kept) = !nodes.any Node.containsSequence := by
  induction h with
  | nil => exact ⟨[], .nil, rfl⟩
  | cons hkid _ ih =>
    obtain ⟨es, hfolds⟩ := hkid.folds
    obtain ⟨es', hall, hkept⟩ := ih
    refine ⟨es ++ es', .cons hfolds hall, ?_⟩
    rw [List.all_cons, List.any_cons, hkept, hkid.kept, Bool.not_or]

/-- The finished elements of a sequence alternate as the elements did, and none is bare. -/
theorem elements_of_finished {span : Span} (hn : (Node.sequence nodes span).WellFormed)
    (h : List.Forall₂ r.Finished kids nodes) :
    Node.sequenceFault (kids.map (·.node)) = none ∧ .bare ∉ kids.map (·.node) := by
  obtain ⟨⟨hseq, hbare⟩, hwell⟩ := Node.wellFormed_sequence.mp hn
  obtain ⟨es, hall, -⟩ := exists_foldsAll_of_finished h
  have hplaces := hall.canReplace hwell
  exact ⟨Node.sequenceFault_of_canReplace hplaces hseq,
    Node.not_mem_bare_of_canReplace hplaces hbare⟩

/-- Over its finished children a node is finished. -/
theorem exists_yields_finish (hn : n.WellFormed) (h : List.Forall₂ r.Finished kids n.children) :
    ∃ finished es, Yields (r.finish n kids) finished es ∧ r.Finished finished n := by
  obtain ⟨es, hall, hkept⟩ := exists_foldsAll_of_finished h
  have hplaces := hall.canReplace fun kid hkid => hn.child hkid
  obtain ⟨m, es', hyields, hfolds, -⟩ := hall.exists_finish hn hplaces rfl h.length_eq hkept
  exact ⟨_, es', hyields, ⟨_, hfolds⟩, rfl⟩

/-- A finished node is an operator exactly where an operator stood, and that one is kept. -/
theorem Finished.operator {s : Substitute} (h : r.Finished s n) (hn : n.WellFormed) :
    s.node.isOperator = n.isOperator ∧ (n.isOperator = true → s = ⟨n, true⟩) := by
  obtain ⟨es, hfolds⟩ := h.folds
  refine ⟨(hfolds.canReplace hn).1, fun hoperator => ?_⟩
  cases n with
  | operator use =>
    obtain ⟨node, kept⟩ := s
    have hnode : node = .operator use := hfolds.operator
    have hkept : kept = !(Node.operator use).containsSequence := h.kept
    rw [hnode, hkept, Node.containsSequence_operator, Bool.not_false]
  | _ => cases hoperator

/-- Finished children are put in place, and a sequence that comes of it has no fault. -/
theorem exists_replaceChildren (hn : n.WellFormed) (h : List.Forall₂ r.Finished kids n.children)
    (hne : n.children ≠ []) : ∃ rebuilt, n.replaceChildren kids = .ok rebuilt ∧
      ∀ elements span, rebuilt.node = .sequence elements span →
        Node.sequenceFault elements = none ∧ .bare ∉ elements := by
  rw [Node.replaceChildren_eq hne h.length_eq]
  cases kids.all (·.kept) with
  | true =>
    -- the node is kept as it is, and it was well-formed before
    refine ⟨⟨n, true⟩, rfl, ?_⟩
    rintro elements span rfl
    exact (Node.wellFormed_sequence.mp hn).1
  | false =>
    cases hnone : n.isSequence with
    | false =>
      obtain ⟨m, hm⟩ := Node.exists_withChildren hnone (kids.map (·.node))
      refine ⟨⟨m, false⟩, by rw [hm]; rfl, ?_⟩
      rintro elements span rfl
      have hseq := Node.isSequence_of_withChildren hnone hm
      cases hseq
    | true =>
      cases n with
      | sequence nodes span =>
        -- operands are finished as operands and operators as operators, so the elements still
        -- alternate
        obtain ⟨hseq, hbare⟩ := elements_of_finished hn h
        refine ⟨⟨.sequence (kids.map (·.node)) span, false⟩, ?_, ?_⟩
        · rw [Node.withChildren, Node.sequence?, hseq]
          rfl
        · rintro elements span ⟨⟩
          exact ⟨hseq, hbare⟩
      | _ => cases hnone

/-- Nothing fails when a node is finished over these children. There are as many as it had: an
operator where an operator stood, and then this very one, and no operator anywhere else. They can be
put in place, and if a sequence comes of it, it alternates and no step of its scan fails. -/
structure Ready (r : Registry) (n : Node) (kids : List Substitute) : Prop where
  operators : List.Forall₂ (fun s kid => s.node.isOperator = kid.isOperator ∧
    (kid.isOperator = true → s = ⟨kid, true⟩)) kids n.children
  replaced : n.children ≠ [] → ∃ rebuilt, n.replaceChildren kids = .ok rebuilt ∧
    ∀ elements span, rebuilt.node = .sequence elements span →
      Node.sequenceFault elements = none ∧ ∃ first rest, elements = first :: rest ∧
        ∀ s, Relation.ReflTransGen r.ScanStep (.start first rest) s → s.Safe r

/-- A well-formed node is ready to be finished when its children are. -/
theorem ready_of_finished (hn : n.WellFormed) (h : List.Forall₂ r.Finished kids n.children) :
    r.Ready n kids := by
  constructor
  · obtain ⟨hlength, hfinished⟩ := List.forall₂_iff_zip.mp h
    refine List.forall₂_iff_zip.mpr ⟨hlength, fun hmem => ?_⟩
    exact (hfinished hmem).operator (hn.child (List.of_mem_zip hmem).2)
  · intro hne
    obtain ⟨rebuilt, hreplaced, hrebuilt⟩ := exists_replaceChildren hn h hne
    refine ⟨rebuilt, hreplaced, fun elements span heq => ?_⟩
    obtain ⟨hseq, hbare⟩ := hrebuilt elements span heq
    cases elements with
    | nil => cases hseq
    | cons first rest =>
      -- the scan of the rebuilt sequence starts soundly and stays so
      exact ⟨hseq, first, rest, rfl, fun s hs => ScanState.safe_of_reachable hseq hbare hs⟩

end Finish

end Registry

/-! ## The invariant -/

/-- Over the results of these nodes, last first, the tasks leave the result of the root and nothing
else. -/
inductive Task.LeadTo (root : Node) : List Task → List Node → Prop
  | nil : LeadTo root [] [root]
  | enter {n : Node} {tasks : List Task} {nodes : List Node} (hn : n.WellFormed)
      (h : LeadTo root tasks (n :: nodes)) : LeadTo root (.enter n :: tasks) nodes
  | leave {n : Node} {tasks : List Task} {nodes : List Node} (hn : n.WellFormed)
      (h : LeadTo root tasks (n :: nodes)) :
      LeadTo root (.leave n :: tasks) (n.children.reverse ++ nodes)

/-- To enter some nodes leaves their results, the last one on top. -/
theorem Task.LeadTo.enterAll {root : Node} {nodes others : List Node} {tasks : List Task}
    (hnodes : ∀ n ∈ nodes, n.WellFormed) (h : LeadTo root tasks (nodes.reverse ++ others)) :
    LeadTo root (nodes.map .enter ++ tasks) others := by
  induction nodes generalizing others with
  | nil => exact h
  | cons n rest ih =>
    refine .enter (hnodes n List.mem_cons_self) (ih ?_ ?_)
    · exact fun m hm => hnodes m (List.mem_cons_of_mem _ hm)
    · rw [List.reverse_cons, List.append_assoc] at h
      exact h

namespace WorkState

/-- The finished nodes are the results of nodes over which the tasks lead to the result of the
root. -/
def Sound (r : Registry) (root : Node) (s : WorkState) : Prop :=
  ∃ nodes, Task.LeadTo root s.tasks nodes ∧ List.Forall₂ r.Finished s.done nodes

variable {r : Registry} {root n : Node} {s t : WorkState} {tasks : List Task}
  {done : List Substitute}

/-- The walk over a well-formed tree starts soundly. -/
theorem sound_start (h : root.WellFormed) : (start root).Sound r root := ⟨[], .enter h .nil, .nil⟩

/-- When a node is to be finished, the results of its children lie on top. -/
theorem Sound.of_leave (h : Sound r root ⟨.leave n :: tasks, done⟩) :
    n.WellFormed ∧ n.children.length ≤ done.length ∧
      List.Forall₂ r.Finished (done.take n.children.length).reverse n.children ∧
      ∃ nodes, Task.LeadTo root tasks (n :: nodes) ∧
        List.Forall₂ r.Finished (done.drop n.children.length) nodes := by
  obtain ⟨nodes, hlead, hdone⟩ := h
  cases hlead with
  | @leave _ _ nodes hn hlead =>
    have htake := List.forall₂_take_append done n.children.reverse nodes hdone
    have hdrop := List.forall₂_drop_append done n.children.reverse nodes hdone
    have hlength : done.length = (n.children.reverse ++ nodes).length := hdone.length_eq
    rw [List.length_reverse] at htake hdrop
    rw [List.length_append, List.length_reverse] at hlength
    have hkids := List.forall₂_reverse_iff.mpr htake
    rw [List.reverse_reverse] at hkids
    exact ⟨hn, by omega, hkids, nodes, hlead, hdrop⟩

/-- Every step keeps the invariant. -/
theorem Sound.step (h : s.Sound r root) (hstep : r.WorkStep s t) : t.Sound r root := by
  cases hstep with
  | @enter n tasks done =>
    obtain ⟨nodes, hlead, hdone⟩ := h
    cases hlead with
    | enter hn hlead => exact ⟨nodes, .enterAll (fun kid => hn.child) (.leave hn hlead), hdone⟩
  | leave hfinish =>
    obtain ⟨hn, -, hkids, nodes, hlead, hrest⟩ := h.of_leave
    obtain ⟨finished, es, hyields, hfinished⟩ := Registry.exists_yields_finish hn hkids
    -- the node is finished in one way only
    have hcollect := hyields.collect.symm.trans hfinish.collect
    cases hcollect
    exact ⟨_, hlead, .cons hfinished hrest⟩

/-- A fold that has tasks left goes on. -/
theorem Sound.progress (h : s.Sound r root) : s.tasks = [] ∨ ∃ t, r.WorkStep s t := by
  obtain ⟨tasks, done⟩ := s
  cases tasks with
  | nil => exact .inl rfl
  | cons task tasks =>
    cases task with
    | enter n => exact .inr ⟨_, .enter⟩
    | leave n =>
      obtain ⟨hn, -, hkids, -⟩ := h.of_leave
      obtain ⟨finished, es, hyields, -⟩ := Registry.exists_yields_finish hn hkids
      exact .inr ⟨_, .leave hyields⟩

/-- At the end the result of the root is left. -/
theorem Sound.exists_result (h : s.Sound r root) (hover : s.tasks = []) :
    ∃ result, s.done = [result] := by
  obtain ⟨nodes, hlead, hdone⟩ := h
  rw [hover] at hlead
  cases hlead
  exact List.length_eq_one_iff.mp hdone.length_eq

/-- From every state on a fold comes to its end. -/
theorem Sound.exists_yields (h : s.Sound r root) :
    ∃ result es, Yields (s.resume r) [result] es := by
  induction hweight : Task.totalWeight s.tasks using Nat.strongRecOn generalizing s with
  | _ count ih =>
    rcases h.progress with hover | ⟨t, hstep⟩
    · obtain ⟨result, hdone⟩ := h.exists_result hover
      refine ⟨result, [], ?_⟩
      rw [resume, hover, hdone, Registry.work]
      exact yields_pure _
    · obtain ⟨result, es, ht⟩ := ih _ (hweight ▸ hstep.weight_lt) (h.step hstep) rfl
      obtain ⟨es', hs⟩ := hstep.yields ht
      exact ⟨result, _, hs⟩

/-- Nothing fails from a state of a fold on: some step is next until no task is left, a node that is
to be finished finds its children and is ready, and at the end there is a single result. -/
structure Safe (r : Registry) (s : WorkState) : Prop where
  goes_on : s.tasks = [] ∨ ∃ t, r.WorkStep s t
  single : s.tasks = [] → ∃ result, s.done = [result]
  ready : ∀ n tasks, s.tasks = .leave n :: tasks →
    n.children.length ≤ s.done.length ∧ r.Ready n (s.done.take n.children.length).reverse
  comes_to : ∃ result es, Yields (s.resume r) [result] es

theorem Sound.safe (h : s.Sound r root) : s.Safe r where
  goes_on := h.progress
  single := h.exists_result
  ready n tasks heq := by
    obtain ⟨_, done⟩ := s
    cases heq
    obtain ⟨hn, henough, hkids, -⟩ := h.of_leave
    exact ⟨henough, Registry.ready_of_finished hn hkids⟩
  comes_to := h.exists_yields

end WorkState

namespace Registry

/-- **A fold never fails on its own account.** Over a well-formed tree a fold that collects errors
has a result, and whatever the limit on them, only one of them ends it early. On the way no stack
runs out: no step of the fold fails, nor one of the scans that it makes. -/
theorem foldTree_faultless (r : Registry) {n : Node} (h : n.WellFormed) :
    ∃ outcome, (r.foldTree n).collect = .ok outcome ∧
      (∀ limit j halt, (r.foldTree n limit j).1 = .error halt →
        ∃ e ∈ outcome.errors, halt = .rejected e) ∧
      ∀ s, Relation.ReflTransGen r.WorkStep (.start n) s → s.Safe r := by
  obtain ⟨m, es, hfolds, -⟩ := r.exists_folds h
  refine ⟨_, hfolds.yields_foldTree.collect, ?_, fun s hs => ?_⟩
  · intro limit j halt hrun
    exact hfolds.yields_foldTree.rejected_of_apply hrun
  · have hsound : s.Sound r n := by
      induction hs with
      | refl => exact WorkState.sound_start h
      | tail _ hstep ih => exact ih.step hstep
    exact hsound.safe

/-- A sequence of the one element `x`. -/
def loneOperand : Node := .sequence [.name "x" .unknown] .unknown

/-- The sequence of `loneOperand` once more in a sequence, `+`, and `(y ? z)`. -/
def loneOperands : Node :=
  .sequence [.sequence [loneOperand] .unknown, .operator ⟨"+", .unknown⟩,
    .paren (.sequence [.name "y" .unknown, .operator ⟨"?", .unknown⟩, .name "z" .unknown]
      .unknown) .unknown] .unknown

/-- A sequence of one element becomes an operand of the sequence around it. Among the states on the
way is the one in which the innermost sequence is to be finished over its element. -/
theorem foldTree_faultless_loneOperands :
    loneOperands.WellFormed ∧
      (∃ outcome, (unrelated.foldTree loneOperands).collect = .ok outcome ∧
        outcome.errors = [.missingOperator "?" .unknown] ∧
        outcome.value.node.containsSequence = false ∧
        ∀ limit j halt, (unrelated.foldTree loneOperands limit j).1 = .error halt →
          halt = .rejected (.missingOperator "?" .unknown)) ∧
      ∃ (s : WorkState) (tasks : List Task),
        Relation.ReflTransGen unrelated.WorkStep (.start loneOperands) s ∧
        s.tasks = .leave loneOperand :: tasks ∧ s.done.length = 1 ∧
        unrelated.Ready loneOperand s.done.reverse := by
  have hwell : loneOperands.WellFormed := by
    simp [loneOperands, loneOperand, Node.sequenceFault, Node.misplacedFrom, Node.isOperator]
  obtain ⟨outcome, hrun, hends, hsafe⟩ := foldTree_faultless unrelated hwell
  have herrors : outcome.errors = [.missingOperator "?" .unknown] := by
    rw [← errors_of_collect hrun]
    decide +kernel
  have hvalue : outcome.value.node.containsSequence = false := by
    rw [← value_of_collect hrun]
    decide +kernel
  refine ⟨hwell, ⟨outcome, hrun, herrors, hvalue, fun limit j halt hhalt => ?_⟩, ?_⟩
  · obtain ⟨e, he, rfl⟩ := hends limit j halt hhalt
    rw [herrors] at he
    rw [List.mem_singleton.mp he]
  · have hreach : Relation.ReflTransGen unrelated.WorkStep (.start loneOperands)
        ⟨.leave loneOperand :: _, [⟨.name "x" .unknown, true⟩]⟩ :=
      ((((Relation.ReflTransGen.refl.tail .enter).tail .enter).tail .enter).tail .enter).tail
        (.leave (yields_pure _))
    exact ⟨_, _, hreach, rfl, rfl, ((hsafe _ hreach).ready loneOperand _ rfl).2⟩

end Registry

end OperatorFold
