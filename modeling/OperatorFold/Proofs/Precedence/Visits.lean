import Mathlib.Data.List.Nodup
import Mathlib.Data.List.Perm.Subperm
import OperatorFold.Proofs.Precedence.Paths

/-! # What a walk does

A walk leaves the group on top of the stack for its edges, and follows them one by one: it passes
over an edge to a name that it has seen, and looks any other name up, unless that is the target. So
every name is looked up at most once, and every group that is found is pushed and left at most once,
whatever cycles and repetitions there are among the relations (`Frugal`). The stack may grow on the
way. But the groups that have not been left and their edges, together with the edges still to be
followed, become fewer with every step (`weight`), so a walk comes to its end.
-/

namespace OperatorFold

open Reporting

/-! ## Steps -/

/-- A walk on its way: where it has got to, the edges of the group left last that are still to be
followed, and the groups pushed and the names looked up so far, each last first. -/
structure WalkState where
  walk : Walk
  todo : List Edge := []
  pushed : List PrecedenceGroup
  lookups : List String := []

namespace Registry

/-- One step of a walk: it leaves the group on top of the stack, passes over an edge, or looks up
the name to which one leads. -/
inductive WalkStep (r : Registry) (d : Direction) (target : String) :
    WalkState → WalkState → Prop
  | leave {w : Walk} {g : PrecedenceGroup} {rest pushed : List PrecedenceGroup}
      {lookups : List String} (h : w.pending = g :: rest) :
      WalkStep r d target ⟨w, [], pushed, lookups⟩ ⟨leave g rest w, r.edges d g, pushed, lookups⟩
  | skip {w : Walk} {e : Edge} {es : List Edge} {pushed : List PrecedenceGroup}
      {lookups : List String} (h : e.target ∈ w.seen) :
      WalkStep r d target ⟨w, e :: es, pushed, lookups⟩ ⟨w, es, pushed, lookups⟩
  | visit {w : Walk} {e : Edge} {es : List Edge} {pushed : List PrecedenceGroup}
      {lookups : List String} (hnew : e.target ∉ w.seen) (hother : e.target ≠ target) :
      WalkStep r d target ⟨w, e :: es, pushed, lookups⟩
        ⟨r.visit e w, es, (r.group? e.target).toList ++ pushed, e.target :: lookups⟩

end Registry

namespace WalkState

/-- The start is pushed without being looked up. -/
def start (g : PrecedenceGroup) : WalkState :=
  { walk := { seen := [g.name], pending := [g] }, pushed := [g] }

/-- A walk ends where nothing is left to visit, or at an edge to the target. -/
inductive Over (target : String) : WalkState → Bool → Prop
  | exhausted {w : Walk} {pushed : List PrecedenceGroup} {lookups : List String}
      (h : w.pending = []) : Over target ⟨w, [], pushed, lookups⟩ false
  | met {w : Walk} {e : Edge} {es : List Edge} {pushed : List PrecedenceGroup}
      {lookups : List String} (hnew : e.target ∉ w.seen) (htarget : e.target = target) :
      Over target ⟨w, e :: es, pushed, lookups⟩ true

/-- The part of a walk that is still to come. -/
def resume (r : Registry) (d : Direction) (target : String) (s : WalkState) : Walk × Bool :=
  let next := r.follow target s.todo s.walk
  if next.2 then next else r.walkFrom d target next.1

end WalkState

section Steps

variable {r : Registry} {d : Direction} {target : String} {s t : WalkState} {found : Bool}

/-- What a walk comes to is the same before and after a step. -/
theorem Registry.WalkStep.resume_eq (h : r.WalkStep d target s t) :
    s.resume r d target = t.resume r d target := by
  cases h with
  | leave hpending => exact Registry.walkFrom_cons hpending
  | skip hseen => rw [WalkState.resume, WalkState.resume, Registry.follow_cons, if_pos hseen]
  | visit hnew hother =>
    rw [WalkState.resume, WalkState.resume, Registry.follow_cons, if_neg hnew, if_neg hother]

/-- At its end a walk has its answer, and has left what it has left and reported what it has
reported. -/
theorem WalkState.Over.resume_eq (r : Registry) (d : Direction) (h : s.Over target found) :
    (s.resume r d target).2 = found ∧
      (s.resume r d target).1.expanded = s.walk.expanded ∧
      (s.resume r d target).1.missing = s.walk.missing := by
  cases h with
  | @exhausted w pushed lookups hpending =>
    have hresume : WalkState.resume r d target ⟨w, [], pushed, lookups⟩ = (w, false) :=
      Registry.walkFrom_nil hpending
    rw [hresume]
    exact ⟨rfl, rfl, rfl⟩
  | met hnew htarget =>
    rw [WalkState.resume, Registry.follow_cons, if_neg hnew, if_pos htarget]
    exact ⟨rfl, rfl, rfl⟩

/-- A walk that is not over goes on. -/
theorem WalkState.progress (r : Registry) (d : Direction) (target : String) (s : WalkState) :
    (∃ found, s.Over target found) ∨ ∃ t, r.WalkStep d target s t := by
  obtain ⟨w, todo, pushed, lookups⟩ := s
  cases todo with
  | nil =>
    cases hpending : w.pending with
    | nil => exact .inl ⟨false, .exhausted hpending⟩
    | cons g rest => exact .inr ⟨_, .leave hpending⟩
  | cons e es =>
    by_cases hseen : e.target ∈ w.seen
    · exact .inr ⟨_, .skip hseen⟩
    · by_cases htarget : e.target = target
      · exact .inl ⟨true, .met hseen htarget⟩
      · exact .inr ⟨_, .visit hseen htarget⟩

end Steps

/-! ## The account of a walk -/

/-- The account of a walk from `start`. -/
structure WalkState.Tallied (r : Registry) (start : PrecedenceGroup) (s : WalkState) : Prop where
  /-- A name is marked as seen when it is looked up, and that of the start beforehand. -/
  seen_eq : s.walk.seen = s.lookups ++ [start.name]
  seen_nodup : s.walk.seen.Nodup
  /-- Pushed are the start and the groups that have been looked up. -/
  pushed_eq : s.pushed = s.lookups.filterMap r.group? ++ [start]
  /-- Reported are the names that have been looked up in vain. -/
  missing_eq : s.walk.missing.map (·.target) =
    s.lookups.reverse.filter fun name => (r.group? name).isNone
  /-- What has been pushed has been left or waits. -/
  pushed_perm : (s.walk.expanded ++ s.walk.pending.map (·.name)).Perm (s.pushed.map (·.name))
  pending_pushed : ∀ g ∈ s.walk.pending, g ∈ s.pushed

namespace WalkState.Tallied

variable {r : Registry} {d : Direction} {target : String} {start : PrecedenceGroup}
  {s t : WalkState}

/-- At the start, only the group that the walk starts from has been pushed. -/
theorem of_start (r : Registry) (start : PrecedenceGroup) :
    (WalkState.start start).Tallied r start where
  seen_eq := rfl
  seen_nodup := List.nodup_singleton _
  pushed_eq := rfl
  missing_eq := rfl
  pushed_perm := .refl _
  pending_pushed _ hg := hg

/-- Every step keeps the account. -/
theorem step (h : s.Tallied r start) (hstep : r.WalkStep d target s t) : t.Tallied r start := by
  cases hstep with
  | @leave w g rest pushed lookups hpending =>
    have hperm := h.pushed_perm
    simp only [hpending, List.map_cons] at hperm
    refine ⟨h.seen_eq, h.seen_nodup, h.pushed_eq, h.missing_eq, ?_, fun k hk => ?_⟩
    · exact List.perm_middle.symm.trans hperm
    · exact h.pending_pushed k (hpending ▸ List.mem_cons_of_mem g hk)
  | skip =>
    exact ⟨h.seen_eq, h.seen_nodup, h.pushed_eq, h.missing_eq, h.pushed_perm, h.pending_pushed⟩
  -- only a visit looks a name up: it pushes the group found, or counts the name as missing
  | @visit w e es pushed lookups hnew hother =>
    have hseen : (r.visit e w).seen = e.target :: (lookups ++ [start.name]) := by
      rw [Registry.seen_visit, h.seen_eq]
    have hnodup : (r.visit e w).seen.Nodup := by
      rw [Registry.seen_visit]
      exact h.seen_nodup.cons hnew
    have hmissing := h.missing_eq
    have hpushed := h.pushed_eq
    have hperm := h.pushed_perm
    have hpending : ∀ k ∈ (r.visit e w).pending, k ∈ (r.group? e.target).toList ++ pushed := by
      intro k hk
      rw [List.mem_append, Option.mem_toList]
      exact (Registry.mem_pending_visit.mp hk).symm.imp_right (h.pending_pushed k)
    cases hfound : r.group? e.target with
    | none =>
      refine ⟨hseen, hnodup, ?_, ?_, ?_, hfound ▸ hpending⟩
      · simpa [hfound] using hpushed
      · simpa [Registry.visit, hfound] using hmissing
      · simpa [Registry.visit, hfound] using hperm
    | some g =>
      refine ⟨hseen, hnodup, ?_, ?_, ?_, hfound ▸ hpending⟩
      · simpa [hfound] using hpushed
      · simpa [Registry.visit, hfound] using hmissing
      · simp only [Registry.visit, hfound, List.map_cons, Option.toList, List.singleton_append]
        exact List.perm_middle.trans (hperm.cons _)

/-- The names of the groups pushed have been seen. -/
theorem sublist_seen (h : s.Tallied r start) :
    (s.pushed.map (·.name)).Sublist s.walk.seen := by
  rw [h.pushed_eq, h.seen_eq, List.map_append, List.map_singleton]
  refine .append_right ?_ _
  induction s.lookups with
  | nil => exact .slnil
  | cons name names ih =>
    cases hfound : r.group? name with
    | none =>
      rw [List.filterMap_cons_none hfound]
      exact ih.cons _
    | some g =>
      rw [List.filterMap_cons_some hfound, List.map_cons, (Registry.of_group? hfound).2]
      exact ih.cons_cons _

/-- No two groups that are pushed have the same name. -/
theorem pushed_nodup (h : s.Tallied r start) : (s.pushed.map (·.name)).Nodup :=
  h.sublist_seen.nodup h.seen_nodup

/-- A name that waits is none of those left. -/
theorem waiting_nodup (h : s.Tallied r start) :
    (s.walk.expanded ++ s.walk.pending.map (·.name)).Nodup :=
  h.pushed_perm.nodup_iff.mpr h.pushed_nodup

/-- Only registered groups are pushed. -/
theorem registered (h : s.Tallied r start) (hstart : start ∈ r.groups) :
    ∀ g ∈ s.pushed, g ∈ r.groups := by
  rw [h.pushed_eq]
  intro g hg
  rcases List.mem_append.mp hg with hg | hg
  · obtain ⟨name, -, hfound⟩ := List.mem_filterMap.mp hg
    exact (Registry.of_group? hfound).1
  · rwa [List.mem_singleton.mp hg]

end WalkState.Tallied

namespace WalkState

/-- A walk does nothing twice. -/
structure Frugal (r : Registry) (s : WalkState) : Prop where
  /-- Only registered groups are pushed, and each of them once. -/
  pushed_registered : ∀ g ∈ s.pushed, g ∈ r.groups
  pushed_nodup : (s.pushed.map (·.name)).Nodup
  /-- What has been pushed has been left or waits, and nothing else. -/
  pushed_perm : (s.walk.expanded ++ s.walk.pending.map (·.name)).Perm (s.pushed.map (·.name))
  /-- A group is left once, and no more groups are left than there are. -/
  expanded_nodup : s.walk.expanded.Nodup
  expanded_le : s.walk.expanded.length ≤ r.groups.length
  /-- A name is looked up once, and reported if no group has it. -/
  lookups_nodup : s.lookups.Nodup
  missing_eq : s.walk.missing.map (·.target) =
    s.lookups.reverse.filter fun name => (r.group? name).isNone

variable {r : Registry} {start : PrecedenceGroup} {s : WalkState}

/-- A walk that is tallied is frugal. -/
theorem Tallied.frugal (h : s.Tallied r start) (hstart : start ∈ r.groups) : s.Frugal r where
  pushed_registered := h.registered hstart
  pushed_nodup := h.pushed_nodup
  pushed_perm := h.pushed_perm
  expanded_nodup := (List.nodup_append.mp h.waiting_nodup).1
  expanded_le := by
    -- the names left are among those pushed, and these among those registered
    have hsubset : s.walk.expanded ⊆ r.groups.map (·.name) := by
      intro name hname
      have hpushed : name ∈ s.pushed.map (·.name) :=
        h.pushed_perm.subset (List.mem_append_left _ hname)
      exact List.map_subset _ (h.registered hstart) hpushed
    have hnodup := (List.nodup_append.mp h.waiting_nodup).1
    simpa using (hnodup.subperm hsubset).length_le
  lookups_nodup := by
    have hnodup := h.seen_nodup
    rw [h.seen_eq] at hnodup
    exact (List.nodup_append.mp hnodup).1
  missing_eq := h.missing_eq

end WalkState

/-! ## The end of a walk -/

namespace Registry

variable {r : Registry} {d : Direction}

/-- The groups whose names are not in a list are one of them and those that are left without it. -/
theorem Consistent.filter_groups_perm (hr : r.Consistent) {g : PrecedenceGroup} (hg : g ∈ r.groups)
    {names : List String} (hnew : g.name ∉ names) :
    (r.groups.filter (·.name ∉ names)).Perm (g :: r.groups.filter (·.name ∉ g.name :: names)) := by
  have hnodup : r.groups.Nodup := hr.groups_nodup.of_map
  have hcons : (g :: r.groups.filter (·.name ∉ g.name :: names)).Nodup := by
    refine (hnodup.filter _).cons ?_
    simp
  refine (List.perm_ext_iff_of_nodup (hnodup.filter _) hcons).mpr fun k => ?_
  simp only [List.mem_filter, List.mem_cons, decide_eq_true_eq, not_or]
  constructor
  · rintro ⟨hk, hkept⟩
    -- no two registered groups share a name, so only `g` falls out with `g.name`
    by_cases heq : k.name = g.name
    · exact .inl (List.inj_on_of_nodup_map hr.groups_nodup hk hg heq)
    · exact .inr ⟨hk, heq, hkept⟩
  · rintro (rfl | ⟨hk, -, hkept⟩)
    · exact ⟨hg, hnew⟩
    · exact ⟨hk, hkept⟩

/-- The groups of other names and all of their edges: so many steps it takes to leave the groups and
to follow the edges. -/
def stepsBeyond (r : Registry) (d : Direction) (expanded : List String) : Nat :=
  let others := r.groups.filter (·.name ∉ expanded)
  others.length + (others.flatMap (r.edges d)).length

theorem stepsBeyond_nil (r : Registry) (d : Direction) :
    r.stepsBeyond d [] = r.groups.length + (r.groups.flatMap (r.edges d)).length := by
  simp [stepsBeyond]

/-- To leave a group takes it and its edges off what is ahead. -/
theorem Consistent.stepsBeyond_cons (hr : r.Consistent) {g : PrecedenceGroup} (hg : g ∈ r.groups)
    {expanded : List String} (hnew : g.name ∉ expanded) :
    r.stepsBeyond d expanded = (r.edges d g).length + 1 + r.stepsBeyond d (g.name :: expanded) := by
  have hperm := hr.filter_groups_perm hg hnew
  have hgroups := hperm.length_eq
  have hedges := (hperm.flatMap_right (r.edges d)).length_eq
  rw [List.length_cons] at hgroups
  rw [List.flatMap_cons, List.length_append] at hedges
  rw [stepsBeyond, stepsBeyond, hgroups, hedges]
  omega

end Registry

namespace WalkState

variable {r : Registry} {d : Direction} {target : String} {start : PrecedenceGroup}
  {s t : WalkState}

/-- A bound on the steps that are still to come. -/
def weight (r : Registry) (d : Direction) (s : WalkState) : Nat :=
  s.todo.length + r.stepsBeyond d s.walk.expanded

/-- Every step takes one off the weight. -/
theorem Tallied.weight_step (h : s.Tallied r start) (hr : r.Consistent) (hstart : start ∈ r.groups)
    (hstep : r.WalkStep d target s t) : t.weight r d + 1 = s.weight r d := by
  cases hstep with
  | @leave w g rest pushed lookups hpending =>
    have hwaits : g ∈ w.pending := hpending ▸ List.mem_cons_self
    have hg : g ∈ r.groups := h.registered hstart g (h.pending_pushed g hwaits)
    have hnew : g.name ∉ w.expanded := fun hleft =>
      (List.nodup_append.mp h.waiting_nodup).2.2 _ hleft _ (List.mem_map_of_mem hwaits) rfl
    simp only [weight, Registry.leave, List.length_nil, hr.stepsBeyond_cons hg hnew]
    omega
  | skip =>
    simp only [weight, List.length_cons]
    omega
  | @visit w e es pushed lookups hnew hother =>
    simp only [weight, List.length_cons, Registry.expanded_visit]
    omega

/-- A walk takes no more steps than its weight allows. -/
theorem Tallied.length_le_weight (h : s.Tallied r start) (hr : r.Consistent)
    (hstart : start ∈ r.groups) {states : List WalkState}
    (hrun : List.IsChain (r.WalkStep d target) (s :: states)) :
    states.length ≤ s.weight r d := by
  induction states generalizing s with
  | nil => exact Nat.zero_le _
  | cons t states ih =>
    obtain ⟨hstep, hrest⟩ := List.isChain_cons_cons.mp hrun
    have hle := ih (h.step hstep) hrest
    have hweight := h.weight_step hr hstart hstep
    rw [List.length_cons]
    omega

/-- From every state on a walk comes to its end. -/
theorem Tallied.exists_over (h : s.Tallied r start) (hr : r.Consistent)
    (hstart : start ∈ r.groups) :
    ∃ t found, Relation.ReflTransGen (r.WalkStep d target) s t ∧ t.Over target found := by
  induction hweight : s.weight r d using Nat.strongRecOn generalizing s with
  | _ weight ih =>
    rcases s.progress r d target with ⟨found, hover⟩ | ⟨t, hstep⟩
    · exact ⟨s, found, .refl, hover⟩
    · have hless := h.weight_step hr hstart hstep
      obtain ⟨last, found, hrun, hover⟩ := ih (t.weight r d) (by omega) (h.step hstep) rfl
      exact ⟨last, found, hrun.head hstep, hover⟩

/-- Every state of a walk is tallied. -/
theorem tallied_of_run (h : Relation.ReflTransGen (r.WalkStep d target) (.start start) s) :
    s.Tallied r start := by
  induction h with
  | refl => exact .of_start r start
  | tail _ hstep ih => exact ih.step hstep

/-- The walk of a start comes through the states that its steps lead to. -/
theorem resume_of_run (h : Relation.ReflTransGen (r.WalkStep d target) (.start start) s) :
    s.resume r d target = r.walk d start target := by
  induction h with
  | refl => rfl
  | tail _ hstep ih => exact hstep.resume_eq.symm.trans ih

end WalkState

namespace Registry

variable {r : Registry} {start : PrecedenceGroup}

/-- **Walks end and do nothing twice.** Take a registry that any loads have built, a registered
group, a direction and the name of a target. The walk from the group comes through the states that
its steps lead to, and up to each of them every registered group has been pushed and left at most
once and every name has been looked up at most once. No walk has more steps than there are groups
and edges, and at its end it gives its answer and reports the names that it has looked up in
vain. -/
theorem walk_ends (hr : r.Reachable) (hstart : start ∈ r.groups) (d : Direction)
    (target : String) :
    (∀ s, Relation.ReflTransGen (r.WalkStep d target) (.start start) s →
      s.Frugal r ∧ s.resume r d target = r.walk d start target ∧
        ((∃ found, s.Over target found) ∨ ∃ t, r.WalkStep d target s t)) ∧
    (∀ states, List.IsChain (r.WalkStep d target) (.start start :: states) →
      states.length ≤ r.groups.length + (r.groups.flatMap (r.edges d)).length) ∧
    ∃ s found, Relation.ReflTransGen (r.WalkStep d target) (.start start) s ∧
      s.Over target found ∧
      (r.walk d start target).2 = found ∧
      (r.walk d start target).1.expanded = s.walk.expanded ∧
      Yields (r.reaches d start target) found (deadEnds s.walk) := by
  have hconsistent := hr.consistent
  refine ⟨fun s hs => ?_, fun states hrun => ?_, ?_⟩
  · exact ⟨(WalkState.tallied_of_run hs).frugal hstart, WalkState.resume_of_run hs,
      s.progress r d target⟩
  · rw [← stepsBeyond_nil]
    have hle := (WalkState.Tallied.of_start r start).length_le_weight hconsistent hstart hrun
    simpa [WalkState.weight, WalkState.start] using hle
  · obtain ⟨s, found, hs, hover⟩ : ∃ s found,
        Relation.ReflTransGen (r.WalkStep d target) (.start start) s ∧ s.Over target found :=
      (WalkState.Tallied.of_start r start).exists_over hconsistent hstart
    have hend := hover.resume_eq r d
    rw [WalkState.resume_of_run hs] at hend
    obtain ⟨hfound, hexpanded, hmissing⟩ := hend
    have hyields := r.yields_reaches d start target
    rw [hfound, deadEnds, hmissing] at hyields
    exact ⟨s, found, hs, hover, hfound, hexpanded, hyields⟩

/-- Down from a group a walk meets a name without a group and the cycle of two groups that have
relations to each other and to themselves, and visits each of them once. -/
theorem walk_ends_tangled :
    tangled.Reachable ∧ ∃ c ∈ tangled.groups, c.name = "c" ∧
      ∃ s, Relation.ReflTransGen (tangled.WalkStep .down "d") (.start c) s ∧
        s.Over "d" false ∧ s.Frugal tangled ∧ s.walk.expanded = ["a", "b", "c"] ∧
        deadEnds s.walk = [.missingGroup "x" .unknown] := by
  have hr : tangled.Reachable := Reachable.empty.record _
  have hc : .declare "c" .right ["x"] [] false .unknown ∈ tangled.groups := by decide
  obtain ⟨hstates, -, s, found, hs, hover, hfound, hexpanded, hyields⟩ :=
    walk_ends hr hc .down "d"
  obtain rfl : false = found := Eq.trans (by decide +kernel) hfound
  have hleft : s.walk.expanded = ["a", "b", "c"] := hexpanded.symm.trans (by decide +kernel)
  have herrors : deadEnds s.walk = [.missingGroup "x" .unknown] :=
    hyields.errors_eq.symm.trans (by decide +kernel)
  exact ⟨hr, _, hc, rfl, s, hs, hover, (hstates s hs).1, hleft, herrors⟩

end Registry

end OperatorFold
