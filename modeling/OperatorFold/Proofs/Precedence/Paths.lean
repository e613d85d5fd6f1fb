import Mathlib.Logic.Relation
import OperatorFold.Proofs.Precedence.Comparison
import OperatorFold.Proofs.Precedence.Registry

/-! # Comparisons decide paths

The declared relations make the registered groups a graph, with an edge down from every group to
those it is directly above. A walk through the registry finds its target exactly if a path of this
graph leads there (`walk_found_iff`), however the relations are spread over the groups and the
indexes, and whatever cycles or undeclared names they contain.

The argument is an invariant of the walk (`Sound`): what waits has been reached from the start, and
a seen group that no longer waits has only edges to seen names. A walk that ends without its target
has therefore seen all that can be reached.
-/

namespace OperatorFold.Registry

variable {r : Registry}

/-! ## The graph of the registered groups -/

/-- A registered group is directly above another one: it declares itself higher, or the other one
declares itself lower. -/
def Above (r : Registry) (g h : PrecedenceGroup) : Prop :=
  g ∈ r.groups ∧ h ∈ r.groups ∧
    ((∃ rel ∈ g.relationsOf .higherThan, rel.target = h.name) ∨
      ∃ rel ∈ h.relationsOf .lowerThan, rel.target = g.name)

/-- A path down from one registered group to another, over registered groups. -/
abbrev Path (r : Registry) (g h : PrecedenceGroup) : Prop := Relation.TransGen r.Above g h

/-- An edge of a group in one direction leads to a registered group. -/
def Step (r : Registry) (d : Direction) (g h : PrecedenceGroup) : Prop :=
  ∃ e ∈ r.edges d g, r.group? e.target = some h

/-- The edges of a group are its own relations in a direction and those of others to it in the other
one. -/
theorem mem_edges {d : Direction} {g : PrecedenceGroup} {e : Edge} :
    e ∈ r.edges d g ↔
      (∃ rel ∈ g.relationsOf d.kind, ⟨rel.target, rel.span⟩ = e) ∨
        ∃ other ∈ r.relatedTo d.kind.flip g.name, ⟨other.name, other.span⟩ = e := by
  rw [edges, List.mem_append, List.mem_map, List.mem_map]

/-- The edges of a registered group lead where its own relations and those of other groups say. -/
theorem Consistent.step_iff (hr : r.Consistent) {d : Direction} {g h : PrecedenceGroup} :
    r.Step d g h ↔ h ∈ r.groups ∧
      ((∃ rel ∈ g.relationsOf d.kind, rel.target = h.name) ∨
        ∃ rel ∈ h.relationsOf d.kind.flip, rel.target = g.name) := by
  constructor
  · rintro ⟨e, he, hfound⟩
    obtain ⟨hmem, hname⟩ := of_group? hfound
    refine ⟨hmem, ?_⟩
    -- an edge is a relation of `g` itself, or one of another group that names `g`
    rcases mem_edges.mp he with ⟨rel, hrel, rfl⟩ | ⟨other, hother, rfl⟩
    · exact .inl ⟨rel, hrel, hname.symm⟩
    · obtain ⟨hreg, rel, hrel, htarget⟩ := hr.mem_relatedTo.mp hother
      rw [hr.group?_eq_some hreg] at hfound
      injection hfound with hfound
      exact .inr ⟨rel, hfound ▸ hrel, htarget⟩
  · rintro ⟨hmem, ⟨rel, hrel, htarget⟩ | ⟨rel, hrel, htarget⟩⟩
    · refine ⟨⟨rel.target, rel.span⟩, mem_edges.mpr (.inl ⟨rel, hrel, rfl⟩), ?_⟩
      rw [htarget]
      exact hr.group?_eq_some hmem
    · have hother := hr.mem_relatedTo.mpr ⟨hmem, rel, hrel, htarget⟩
      exact ⟨⟨h.name, h.span⟩, mem_edges.mpr (.inr ⟨h, hother, rfl⟩), hr.group?_eq_some hmem⟩

/-- A step down leads to a group below. -/
theorem Consistent.step_down_iff (hr : r.Consistent) {g h : PrecedenceGroup} (hg : g ∈ r.groups) :
    r.Step .down g h ↔ r.Above g h := by
  rw [hr.step_iff]
  exact ⟨fun hstep => ⟨hg, hstep⟩, fun habove => habove.2⟩

theorem Consistent.step_up_iff (hr : r.Consistent) {g h : PrecedenceGroup} (hg : g ∈ r.groups) :
    r.Step .up g h ↔ r.Above h g := by
  rw [hr.step_iff]
  exact ⟨fun ⟨hh, hstep⟩ => ⟨hh, hg, hstep.symm⟩, fun ⟨hh, _, habove⟩ => ⟨hh, habove.symm⟩⟩

/-! ## Following edges -/

/-- The walk after an edge to a name not seen before: the group of that name waits, or the name is a
dead end. -/
def visit (r : Registry) (e : Edge) (w : Walk) : Walk :=
  match r.group? e.target with
  | none => { w with seen := e.target :: w.seen, missing := w.missing ++ [e] }
  | some g => { w with seen := e.target :: w.seen, pending := g :: w.pending }

theorem seen_visit (r : Registry) (e : Edge) (w : Walk) :
    (r.visit e w).seen = e.target :: w.seen := by
  rw [visit]
  split
  · rfl
  · rfl

theorem expanded_visit (r : Registry) (e : Edge) (w : Walk) :
    (r.visit e w).expanded = w.expanded := by
  rw [visit]
  split
  · rfl
  · rfl

/-- A visit lets the group wait that is found under the name. -/
theorem mem_pending_visit {e : Edge} {w : Walk} {g : PrecedenceGroup} :
    g ∈ (r.visit e w).pending ↔ g ∈ w.pending ∨ r.group? e.target = some g := by
  rw [visit]
  cases r.group? e.target with
  | none => simp
  | some g' => simp only [List.mem_cons, Option.some.injEq, or_comm, eq_comm]

/-- An edge is skipped if its name has been seen, ends the walk if it is the target, and is visited
otherwise. -/
theorem follow_cons (r : Registry) (target : String) (e : Edge) (rest : List Edge) (w : Walk) :
    r.follow target (e :: rest) w =
      if e.target ∈ w.seen then r.follow target rest w
      else if e.target = target then ({ w with seen := e.target :: w.seen }, true)
      else r.follow target rest (r.visit e w) := by
  rw [follow, visit]
  split
  · rfl
  · cases r.group? e.target with
    | none => rfl
    | some g => rfl

/-- The walk that leaves the group on top of those that wait. -/
def leave (g : PrecedenceGroup) (rest : List PrecedenceGroup) (w : Walk) : Walk :=
  { w with pending := rest, expanded := g.name :: w.expanded }

theorem walkFrom_nil {d : Direction} {target : String} {w : Walk} (h : w.pending = []) :
    r.walkFrom d target w = (w, false) := by
  rw [walkFrom]
  split
  · rfl
  · next h' => rw [h] at h'; cases h'

/-- A walk follows the edges of the next waiting group, and goes on if the target is not among
them. -/
theorem walkFrom_cons {d : Direction} {target : String} {w : Walk} {g : PrecedenceGroup}
    {rest : List PrecedenceGroup} (h : w.pending = g :: rest) :
    r.walkFrom d target w =
      if (r.follow target (r.edges d g) (leave g rest w)).2 then
        r.follow target (r.edges d g) (leave g rest w)
      else r.walkFrom d target (r.follow target (r.edges d g) (leave g rest w)).1 := by
  rw [walkFrom]
  split
  · next h' => rw [h] at h'; cases h'
  · next h' =>
    rw [h] at h'
    injection h' with hg hrest
    rw [← hg, ← hrest]
    rfl

/-! ## The invariant of a walk -/

/-- The walk has met an edge to the target, at a group reached from the start. -/
def Met (r : Registry) (d : Direction) (start : PrecedenceGroup) (target : String) : Prop :=
  ∃ g, Relation.ReflTransGen (r.Step d) start g ∧ ∃ e ∈ r.edges d g, e.target = target

/-- The invariant of a walk that has the edges `todo` of one group still to follow. -/
structure Sound (r : Registry) (d : Direction) (start : PrecedenceGroup) (target : String)
    (todo : List Edge) (w : Walk) : Prop where
  /-- What waits has been reached from the start. -/
  reached : ∀ g ∈ w.pending, Relation.ReflTransGen (r.Step d) start g
  /-- So has the group whose edges are followed. -/
  todo_reached : ∀ e ∈ todo, ∃ g, Relation.ReflTransGen (r.Step d) start g ∧ e ∈ r.edges d g
  /-- A seen group that no longer waits has only edges to seen names, up to those to follow. -/
  closed : ∀ name ∈ w.seen, ∀ g, r.group? name = some g →
    g ∈ w.pending ∨ ∀ e ∈ r.edges d g, e.target ∈ w.seen ∨ e ∈ todo
  start_seen : start.name ∈ w.seen
  target_unseen : target ∉ w.seen

namespace Sound

variable {d : Direction} {start : PrecedenceGroup} {target : String} {e : Edge} {es : List Edge}
  {w : Walk}

/-- An edge to a seen name is passed over. -/
theorem skip (h : r.Sound d start target (e :: es) w) (hseen : e.target ∈ w.seen) :
    r.Sound d start target es w where
  reached := h.reached
  todo_reached e' he' := h.todo_reached e' (List.mem_cons_of_mem _ he')
  closed name hname g hg := by
    refine (h.closed name hname g hg).imp_right fun hedges e' he' => ?_
    rcases hedges e' he' with hold | hold
    · exact .inl hold
    · rcases List.mem_cons.mp hold with rfl | hold
      · exact .inl hseen
      · exact .inr hold
  start_seen := h.start_seen
  target_unseen := h.target_unseen

/-- An edge to another name than the target is followed. -/
theorem visit (h : r.Sound d start target (e :: es) w) (hne : e.target ≠ target) :
    r.Sound d start target es (r.visit e w) where
  reached g hg := by
    -- a group that waits now did so before or is the one found behind the edge
    rcases mem_pending_visit.mp hg with hg | hfound
    · exact h.reached g hg
    · obtain ⟨g', hg', he⟩ := h.todo_reached e List.mem_cons_self
      exact hg'.tail ⟨e, he, hfound⟩
  todo_reached e' he' := h.todo_reached e' (List.mem_cons_of_mem _ he')
  closed name hname g hg := by
    rw [seen_visit] at hname ⊢
    rcases List.mem_cons.mp hname with rfl | hname
    · exact .inl (mem_pending_visit.mpr (.inr hg))
    · rcases h.closed name hname g hg with hwaits | hedges
      · exact .inl (mem_pending_visit.mpr (.inl hwaits))
      · refine .inr fun e' he' => ?_
        rcases hedges e' he' with hold | hold
        · exact .inl (List.mem_cons_of_mem _ hold)
        · rcases List.mem_cons.mp hold with rfl | hold
          · exact .inl List.mem_cons_self
          · exact .inr hold
  start_seen := by
    rw [seen_visit]
    exact List.mem_cons_of_mem _ h.start_seen
  target_unseen := by
    rw [seen_visit, List.mem_cons]
    rintro (heq | hold)
    · exact hne heq.symm
    · exact h.target_unseen hold

/-- A waiting group is left for its edges. -/
theorem leave {g : PrecedenceGroup} {rest : List PrecedenceGroup}
    (h : r.Sound d start target [] w) (hw : w.pending = g :: rest) :
    r.Sound d start target (r.edges d g) (Registry.leave g rest w) where
  reached g' hg' := h.reached g' (hw ▸ List.mem_cons_of_mem _ hg')
  todo_reached e he := ⟨g, h.reached g (hw ▸ List.mem_cons_self), he⟩
  closed name hname g' hg' := by
    -- the group that is left has all of its edges to follow
    rcases h.closed name hname g' hg' with hwaits | hedges
    · rcases List.mem_cons.mp (hw ▸ hwaits) with rfl | hwaits
      · exact .inr fun e he => .inr he
      · exact .inl hwaits
    · exact .inr fun e he => (hedges e he).imp_right nofun
  start_seen := h.start_seen
  target_unseen := h.target_unseen

/-- Following edges meets the target or keeps the invariant. -/
theorem follow (h : r.Sound d start target es w) :
    ((r.follow target es w).2 = true → r.Met d start target) ∧
      ((r.follow target es w).2 = false → r.Sound d start target [] (r.follow target es w).1) := by
  induction es generalizing w with
  | nil => exact ⟨nofun, fun _ => h⟩
  | cons e rest ih =>
    rw [follow_cons]
    by_cases hseen : e.target ∈ w.seen
    · rw [if_pos hseen]
      exact ih (h.skip hseen)
    · by_cases htarget : e.target = target
      · obtain ⟨g, hg, he⟩ := h.todo_reached e List.mem_cons_self
        rw [if_neg hseen, if_pos htarget]
        exact ⟨fun _ => ⟨g, hg, e, he, htarget⟩, nofun⟩
      · rw [if_neg hseen, if_neg htarget]
        exact ih (h.visit htarget)

/-- A walk meets the target or ends with nothing left to visit. -/
theorem walkFrom (h : r.Sound d start target [] w) :
    ((r.walkFrom d target w).2 = true → r.Met d start target) ∧
      ((r.walkFrom d target w).2 = false →
        (r.walkFrom d target w).1.pending = [] ∧
          r.Sound d start target [] (r.walkFrom d target w).1) := by
  -- on the run of the walk: what holds of its state passes from group to group
  induction w using Registry.walkFrom.induct r d target with
  | case1 w hw =>
    rw [walkFrom_nil hw]
    exact ⟨nofun, fun _ => ⟨hw, h⟩⟩
  | case2 w g rest hw _ _ hfound =>
    have hfound : (r.follow target (r.edges d g) (Registry.leave g rest w)).2 = true := hfound
    rw [walkFrom_cons hw, if_pos hfound]
    refine ⟨(h.leave hw).follow.1, ?_⟩
    intro hpast
    rw [hfound] at hpast
    cases hpast
  | case3 w g rest hw _ _ hpast ih =>
    have hpast : ¬(r.follow target (r.edges d g) (Registry.leave g rest w)).2 = true := hpast
    rw [walkFrom_cons hw, if_neg hpast]
    exact ih ((h.leave hw).follow.2 (Bool.eq_false_iff.mpr hpast))

/-- When nothing is left to visit, all groups that can be reached from the start have been seen. -/
theorem seen_of_reached (h : r.Sound d start target [] w) (hw : w.pending = [])
    (hstart : r.group? start.name = some start) {g : PrecedenceGroup}
    (hg : Relation.ReflTransGen (r.Step d) start g) :
    g.name ∈ w.seen ∧ r.group? g.name = some g := by
  induction hg with
  | refl => exact ⟨h.start_seen, hstart⟩
  | tail _ hstep ih =>
    obtain ⟨hseen, hfound⟩ := ih
    obtain ⟨e, he, hfound'⟩ := hstep
    rw [(of_group? hfound').2]
    rcases h.closed _ hseen _ hfound with hwaits | hedges
    · rw [hw] at hwaits
      cases hwaits
    · exact ⟨(hedges e he).resolve_right nofun, hfound'⟩

/-- So have the names to which their edges lead. -/
theorem seen_of_edge (h : r.Sound d start target [] w) (hw : w.pending = [])
    (hstart : r.group? start.name = some start) {g : PrecedenceGroup}
    (hg : Relation.ReflTransGen (r.Step d) start g) (he : e ∈ r.edges d g) :
    e.target ∈ w.seen := by
  obtain ⟨hseen, hfound⟩ := h.seen_of_reached hw hstart hg
  rcases h.closed _ hseen g hfound with hwaits | hedges
  · rw [hw] at hwaits
    cases hwaits
  · exact (hedges e he).resolve_right nofun

end Sound

/-! ## What a walk finds -/

variable {d : Direction} {start g : PrecedenceGroup}

/-- At the start, a walk has seen the group it starts from and nothing else. -/
theorem sound_start (d : Direction) {target : String} (hstart : r.group? start.name = some start)
    (hne : start.name ≠ target) :
    r.Sound d start target [] { seen := [start.name], pending := [start] } where
  reached g hg := by
    rw [List.mem_singleton.mp hg]
  todo_reached := nofun
  closed name hname g hg := by
    rw [List.mem_singleton.mp hname, hstart] at hg
    injection hg with hg
    exact .inl (hg ▸ List.mem_singleton_self start)
  start_seen := List.mem_singleton_self _
  target_unseen := fun h => hne (List.mem_singleton.mp h).symm

/-- A walk finds a registered group of another name than its start exactly if it can be reached. -/
theorem walk_found_iff (d : Direction) (hstart : r.group? start.name = some start)
    (hg : r.group? g.name = some g) (hne : start.name ≠ g.name) :
    (r.walk d start g.name).2 = true ↔ Relation.TransGen (r.Step d) start g := by
  have hwalk := (sound_start d hstart hne).walkFrom
  constructor
  · intro hfound
    obtain ⟨g', hg', e, he, htarget⟩ := hwalk.1 hfound
    exact .tail' hg' ⟨e, he, htarget ▸ hg⟩
  · intro hpath
    by_contra hpast
    obtain ⟨hw, hsound⟩ := hwalk.2 (Bool.eq_false_iff.mpr hpast)
    exact hsound.target_unseen (hsound.seen_of_reached hw hstart hpath.to_reflTransGen).1

/-! ## Paths -/

/-- Paths of a relation that agrees with another one on a set it does not leave. -/
private theorem transGen_of_agree {α : Type} {R S : α → α → Prop} {M : α → Prop}
    (h : ∀ a b, M a → R a b → S a b ∧ M b) {a b : α} (ha : M a) (hab : Relation.TransGen R a b) :
    Relation.TransGen S a b ∧ M b := by
  induction hab with
  | single hstep => exact ⟨.single (h a _ ha hstep).1, (h a _ ha hstep).2⟩
  | tail _ hstep ih =>
    obtain ⟨hpath, hmem⟩ := ih
    exact ⟨hpath.tail (h _ _ hmem hstep).1, (h _ _ hmem hstep).2⟩

/-- The steps down from a registered group are the paths of the graph. -/
theorem Consistent.transGen_down_iff (hr : r.Consistent) {g h : PrecedenceGroup}
    (hg : g ∈ r.groups) : Relation.TransGen (r.Step .down) g h ↔ r.Path g h := by
  constructor
  · intro hsteps
    refine (transGen_of_agree (M := (· ∈ r.groups)) (fun a b ha hstep => ?_) hg hsteps).1
    have habove := (hr.step_down_iff ha).mp hstep
    exact ⟨habove, habove.2.1⟩
  · intro hpath
    have hsteps : r.Above ≤ r.Step .down := fun a b habove => (hr.step_down_iff habove.1).mpr habove
    exact Relation.TransGen.mono hsteps g h hpath

/-- The steps up are the same paths read backwards. -/
theorem Consistent.transGen_up_iff (hr : r.Consistent) {g h : PrecedenceGroup}
    (hg : g ∈ r.groups) : Relation.TransGen (r.Step .up) g h ↔ r.Path h g := by
  refine Iff.trans ?_ Relation.transGen_swap
  constructor
  · intro hsteps
    refine (transGen_of_agree (M := (· ∈ r.groups)) (fun a b ha hstep => ?_) hg hsteps).1
    have habove := (hr.step_up_iff ha).mp hstep
    exact ⟨habove, habove.1⟩
  · intro hpath
    have hsteps : Function.swap r.Above ≤ r.Step .up :=
      fun a b habove => (hr.step_up_iff habove.2.1).mpr habove
    exact Relation.TransGen.mono hsteps g h hpath

/-- The comparison of two registered groups of different names, by the paths between them. -/
theorem Consistent.order_cases (hr : r.Consistent) {a b : PrecedenceGroup} (ha : a ∈ r.groups)
    (hb : b ∈ r.groups) (hne : a.name ≠ b.name) :
    (r.order (.declared a) (.declared b) = .higher ∧ r.Path a b) ∨
      (r.order (.declared a) (.declared b) = .lower ∧ ¬r.Path a b ∧ r.Path b a) ∨
      (r.order (.declared a) (.declared b) = .unordered ∧ ¬r.Path a b ∧ ¬r.Path b a) := by
  have hstart := hr.group?_eq_some ha
  have htarget := hr.group?_eq_some hb
  -- the walk down finds `b` if `a` has a path to it, and the walk up if `b` has one to `a`
  have hdown := walk_found_iff .down hstart htarget hne
  have hup := walk_found_iff .up hstart htarget hne
  rw [hr.transGen_down_iff ha] at hdown
  rw [hr.transGen_up_iff ha] at hup
  rw [order, ← hdown, ← hup]
  obtain ⟨hd, h⟩ | ⟨hd, hu, h⟩ | ⟨hd, hu, h⟩ := r.compare_cases hne
  · exact .inl ⟨h.value_eq, hd⟩
  · exact .inr (.inl ⟨h.value_eq, Bool.eq_false_iff.mp hd, hu⟩)
  · exact .inr (.inr ⟨h.value_eq, Bool.eq_false_iff.mp hd, Bool.eq_false_iff.mp hu⟩)

/-- **Comparison decides paths.** In a registry that any loads have built, the comparison of two
registered groups of different names ends: with `higher` if and only if a path of registered groups
leads from the first down to the second, with `lower` if and only if one leads from the second to
the first but none back, and with `unordered` if and only if there is neither. -/
theorem compare_iff_path (hr : r.Reachable) {a b : PrecedenceGroup} (ha : a ∈ r.groups)
    (hb : b ∈ r.groups) (hne : a.name ≠ b.name) :
    ∃ outcome, (r.compare (.declared a) (.declared b)).collect = .ok outcome ∧
      (outcome.value = .higher ↔ r.Path a b) ∧
      (outcome.value = .lower ↔ ¬r.Path a b ∧ r.Path b a) ∧
      (outcome.value = .unordered ↔ ¬r.Path a b ∧ ¬r.Path b a) := by
  refine ⟨_, (r.yields_compare (.declared a) (.declared b)).collect, ?_⟩
  rcases hr.consistent.order_cases ha hb hne with ⟨ho, hab⟩ | ⟨ho, hab, hba⟩ | ⟨ho, hab, hba⟩ <;>
    simp [*]

/-- A cycle of two groups, one of which is above itself, a relation declared twice, and a name
between two groups under which none is registered. -/
def tangledGroups : List PrecedenceGroup :=
  [.declare "a" .left ["b", "b", "a"] [] false .unknown,
    .declare "b" .none ["a"] ["c"] false .unknown,
    .declare "c" .right ["x"] [] false .unknown,
    .declare "d" .none [] ["x"] false .unknown]

/-- The registry of those groups. -/
def tangled : Registry :=
  (tangledGroups.map fun g => .declaration (.group g)).foldl recordItem .empty

/-- From the cycle of `a` and `b` a path leads up to `c` but none down, and no path connects `c` and
`d` through the name that both relate to. -/
theorem compare_tangled :
    tangled.Reachable ∧ ∃ a b c d, tangled.groups = [a, b, c, d] ∧
      (a.name ≠ c.name ∧ ¬tangled.Path a c ∧ tangled.Path c a ∧
        ∃ es, (tangled.compare (.declared a) (.declared c)).collect = .ok ⟨.lower, es⟩) ∧
      c.name ≠ d.name ∧ ¬tangled.Path c d ∧ ¬tangled.Path d c ∧
        ∃ es, (tangled.compare (.declared c) (.declared d)).collect = .ok ⟨.unordered, es⟩ := by
  have hr : tangled.Reachable := Reachable.empty.record _
  refine ⟨hr, _, _, _, _, rfl, ⟨by decide, ?_⟩, by decide, ?_⟩
  · obtain ⟨⟨value, es⟩, hrun, -, hlower, -⟩ := compare_iff_path hr
      (a := .declare "a" .left ["b", "b", "a"] [] false .unknown)
      (b := .declare "c" .right ["x"] [] false .unknown) (by decide) (by decide) (by decide)
    have hvalue : value = .lower := (Reporting.value_of_collect hrun).symm.trans (by decide +kernel)
    obtain ⟨hac, hca⟩ := hlower.mp hvalue
    exact ⟨hac, hca, es, hvalue ▸ hrun⟩
  · obtain ⟨⟨value, es⟩, hrun, -, -, hunordered⟩ := compare_iff_path hr
      (a := .declare "c" .right ["x"] [] false .unknown)
      (b := .declare "d" .none [] ["x"] false .unknown) (by decide) (by decide) (by decide)
    have hvalue : value = .unordered :=
      (Reporting.value_of_collect hrun).symm.trans (by decide +kernel)
    obtain ⟨hcd, hdc⟩ := hunordered.mp hvalue
    exact ⟨hcd, hdc, es, hvalue ▸ hrun⟩

end OperatorFold.Registry
