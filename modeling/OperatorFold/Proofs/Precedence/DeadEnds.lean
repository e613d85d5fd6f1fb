import OperatorFold.Proofs.Precedence.Paths

/-! # Dead ends

A relation to a name without a group leads nowhere. A comparison walks down from its first group
and, unless it has met the second one there, also up, and it reports the dead ends on its way: all
that there are in a direction if the walk in this direction has found nothing, and each name at most
once (`compare_deadEnds`).

Beside the invariant of the walk itself (`Sound`) there is one of what it has recorded (`Records`):
what has been recorded is a dead end of a group reached from the start, and the names without a
group that have been seen are those that have been recorded.
-/

namespace OperatorFold.Registry

variable {r : Registry} {d : Direction} {start a b : PrecedenceGroup} {target : String} {e : Edge}
  {es : List Edge} {w : Walk}

/-! ## What a walk records -/

/-- The invariant of the dead ends that a walk has recorded. -/
structure Records (r : Registry) (d : Direction) (start : PrecedenceGroup) (w : Walk) : Prop where
  /-- A recorded edge is one of a group that has been reached, and leads to no group. -/
  missing : ∀ e ∈ w.missing, r.group? e.target = none ∧
    ∃ g, Relation.ReflTransGen (r.Step d) start g ∧ e ∈ r.edges d g
  /-- A name without a group is recorded when it is first seen. -/
  seen_iff : ∀ name, r.group? name = none →
    (name ∈ w.seen ↔ name ∈ w.missing.map (·.target))
  nodup : (w.missing.map (·.target)).Nodup

namespace Records

/-- To see the name of a group changes nothing. -/
theorem see (h : r.Records d start w) {g : PrecedenceGroup} (hg : r.group? target = some g)
    (pending : List PrecedenceGroup) :
    r.Records d start { w with seen := target :: w.seen, pending } where
  missing := h.missing
  seen_iff name hname := by
    have hne : name ≠ target := by
      rintro rfl
      rw [hname] at hg
      cases hg
    rw [List.mem_cons, h.seen_iff name hname, or_iff_right hne]
  nodup := h.nodup

/-- An edge of a group that has been reached is followed to a name not seen before. -/
theorem visit (h : r.Records d start w)
    (hreached : ∃ g, Relation.ReflTransGen (r.Step d) start g ∧ e ∈ r.edges d g)
    (hnew : e.target ∉ w.seen) : r.Records d start (r.visit e w) := by
  rw [Registry.visit]
  cases hfound : r.group? e.target with
  | some g => exact h.see hfound _
  | none =>
    refine ⟨?_, fun name hname => ?_, ?_⟩
    · rw [List.forall_mem_append, List.forall_mem_singleton]
      exact ⟨h.missing, hfound, hreached⟩
    · rw [List.mem_cons, List.map_append, List.mem_append, List.map_singleton,
        List.mem_singleton, h.seen_iff name hname, or_comm]
    · -- the name is new, so it has not been recorded either
      rw [h.seen_iff _ hfound] at hnew
      rw [List.map_append, List.map_singleton, ← List.concat_eq_append]
      exact h.nodup.concat hnew

/-- To follow some edges records the dead ends among them. -/
theorem follow (h : r.Records d start w) (hsound : r.Sound d start target es w)
    {g : PrecedenceGroup} (hg : r.group? target = some g) :
    r.Records d start (r.follow target es w).1 := by
  -- on the edges: one is skipped, or it is the target and found, or its name is looked up
  induction es generalizing w with
  | nil => exact h
  | cons e rest ih =>
    rw [follow_cons]
    by_cases hseen : e.target ∈ w.seen
    · rw [if_pos hseen]
      exact ih h (hsound.skip hseen)
    · rw [if_neg hseen]
      by_cases htarget : e.target = target
      · rw [if_pos htarget, htarget]
        exact h.see hg _
      · rw [if_neg htarget]
        have hreached := hsound.todo_reached e List.mem_cons_self
        exact ih (h.visit hreached hseen) (hsound.visit htarget)

/-- To walk on records the dead ends of all that is met. -/
theorem walkFrom (h : r.Records d start w) (hsound : r.Sound d start target [] w)
    {g : PrecedenceGroup} (hg : r.group? target = some g) :
    r.Records d start (r.walkFrom d target w).1 := by
  -- on the run of the walk; to leave a group records nothing, to follow its edges does
  induction w using Registry.walkFrom.induct r d target with
  | case1 w hw =>
    rw [walkFrom_nil hw]
    exact h
  | case2 w k rest hw _ _ hfound =>
    have hfound : (r.follow target (r.edges d k) (Registry.leave k rest w)).2 = true := hfound
    have hleft : r.Records d start (Registry.leave k rest w) := ⟨h.missing, h.seen_iff, h.nodup⟩
    rw [walkFrom_cons hw, if_pos hfound]
    exact hleft.follow (hsound.leave hw) hg
  | case3 w k rest hw _ _ hpast ih =>
    have hpast : ¬(r.follow target (r.edges d k) (Registry.leave k rest w)).2 = true := hpast
    have hleft : r.Records d start (Registry.leave k rest w) := ⟨h.missing, h.seen_iff, h.nodup⟩
    rw [walkFrom_cons hw, if_neg hpast]
    exact ih (hleft.follow (hsound.leave hw) hg)
      ((hsound.leave hw).follow.2 (Bool.eq_false_iff.mpr hpast))

end Records

/-! ## The dead ends of a group -/

/-- A path in some direction leads from one registered group to another. -/
def Leads (r : Registry) : Direction → PrecedenceGroup → PrecedenceGroup → Prop
  | .down, g, h => r.Path g h
  | .up, g, h => r.Path h g

/-- A dead end of a group in some direction: the group, or one to which a path leads from it, has a
relation to a name without a group. -/
def DeadEnd (r : Registry) (d : Direction) (a : PrecedenceGroup) (e : Edge) : Prop :=
  r.group? e.target = none ∧
    ∃ g, (g = a ∨ r.Leads d a g) ∧ ∃ rel ∈ g.relationsOf d.kind, ⟨rel.target, rel.span⟩ = e

/-- Some dead ends of a group in some direction, no two of them about one name. -/
structure DeadEnds (r : Registry) (d : Direction) (a : PrecedenceGroup) (es : List Edge) :
    Prop where
  deadEnd : ∀ e ∈ es, r.DeadEnd d a e
  nodup : (es.map (·.target)).Nodup

/-- The steps of a walk from a registered group are the paths from it. -/
theorem Consistent.reflTransGen_iff (hr : r.Consistent) (ha : a ∈ r.groups)
    {g : PrecedenceGroup} :
    Relation.ReflTransGen (r.Step d) a g ↔ g = a ∨ r.Leads d a g := by
  rw [Relation.reflTransGen_iff_eq_or_transGen]
  cases d with
  | down => rw [hr.transGen_down_iff ha, Leads]
  | up => rw [hr.transGen_up_iff ha, Leads]

/-- An edge to no group is declared by the group that it starts from. -/
theorem Consistent.mem_edges_of_missing (hr : r.Consistent) {g : PrecedenceGroup}
    (hmissing : r.group? e.target = none) :
    e ∈ r.edges d g ↔ ∃ rel ∈ g.relationsOf d.kind, ⟨rel.target, rel.span⟩ = e := by
  rw [mem_edges]
  refine or_iff_left ?_
  rintro ⟨other, hother, rfl⟩
  rw [hr.group?_eq_some (hr.mem_relatedTo.mp hother).1] at hmissing
  cases hmissing

/-- A walk from one registered group to another records dead ends, and all names of them if it
finds nothing. -/
theorem Consistent.walk_deadEnds (hr : r.Consistent) (d : Direction) (ha : a ∈ r.groups)
    (hb : b ∈ r.groups) (hne : a.name ≠ b.name) :
    r.DeadEnds d a (r.walk d a b.name).1.missing ∧
      ((r.walk d a b.name).2 = false → ∀ e, r.DeadEnd d a e →
        e.target ∈ (r.walk d a b.name).1.missing.map (·.target)) := by
  have hstart := hr.group?_eq_some ha
  have hsound := sound_start d hstart hne
  have hempty : r.Records d a { seen := [a.name], pending := [a] } := by
    refine ⟨nofun, fun name hname => ?_, List.nodup_nil⟩
    have hother : name ≠ a.name := by
      rintro rfl
      rw [hname] at hstart
      cases hstart
    simp [hother]
  have hrecords := hempty.walkFrom hsound (hr.group?_eq_some hb)
  refine ⟨⟨fun e he => ?_, hrecords.nodup⟩, fun hpast e ⟨hmissing, g, hg, hrel⟩ => ?_⟩
  · obtain ⟨hmissing, g, hg, hedge⟩ := hrecords.missing e he
    exact ⟨hmissing, g, (hr.reflTransGen_iff ha).mp hg, (hr.mem_edges_of_missing hmissing).mp hedge⟩
  · -- nothing is left to visit, so the name has been seen
    obtain ⟨hend, hsound⟩ := hsound.walkFrom.2 hpast
    have hedge := (hr.mem_edges_of_missing (d := d) hmissing).mpr hrel
    have hseen := hsound.seen_of_edge hend hstart ((hr.reflTransGen_iff ha).mpr hg) hedge
    exact (hrecords.seen_iff _ hmissing).mp hseen

/-- The relations of all groups lead to registered groups. -/
def Closed (r : Registry) : Prop := ∀ g ∈ r.groups, ∀ rel ∈ g.relations, r.group? rel.target ≠ none

/-- A walk among groups whose relations all lead to registered groups comes to no dead end. -/
theorem Consistent.walk_missing_eq_nil (hr : r.Consistent) (hclosed : r.Closed) (d : Direction)
    (ha : a ∈ r.groups) (hb : b ∈ r.groups) (hne : a.name ≠ b.name) :
    (r.walk d a b.name).1.missing = [] := by
  refine List.eq_nil_iff_forall_not_mem.mpr fun e he => ?_
  obtain ⟨hmissing, g, hg, rel, hrel, rfl⟩ := (hr.walk_deadEnds d ha hb hne).1.deadEnd e he
  have hmem : g ∈ r.groups := by
    rcases hg with rfl | hpath
    · exact ha
    · cases d with
      | down =>
        obtain ⟨_, -, hlast⟩ := Relation.TransGen.tail'_iff.mp hpath
        exact hlast.2.1
      | up =>
        obtain ⟨_, hfirst, -⟩ := Relation.TransGen.head'_iff.mp hpath
        exact hfirst.1
  exact hclosed g hmem rel (List.mem_of_mem_filter hrel) hmissing

/-- **A comparison reports the dead ends on its way.** In a registry that any loads have built, the
errors of comparing two registered groups of different names are those of dead ends down from the
first group, and then, unless the order is `higher`, those of dead ends up from it. In neither part
is a name reported twice. Unless the order is `higher` all names of dead ends down from the group
are reported, and if it is `unordered`, so are all names of dead ends up from it. -/
theorem compare_deadEnds (hr : r.Reachable) (ha : a ∈ r.groups) (hb : b ∈ r.groups)
    (hne : a.name ≠ b.name) :
    ∃ (o : Order) (down up : List Edge),
      (r.compare (.declared a) (.declared b)).collect =
        .ok ⟨o, (down ++ up).map fun e => .missingGroup e.target e.span⟩ ∧
      r.DeadEnds .down a down ∧ r.DeadEnds .up a up ∧ (o = .higher → up = []) ∧
      (o ≠ .higher → ∀ e, r.DeadEnd .down a e → e.target ∈ down.map (·.target)) ∧
      (o = .unordered → ∀ e, r.DeadEnd .up a e → e.target ∈ up.map (·.target)) := by
  obtain ⟨hdown, halldown⟩ := hr.consistent.walk_deadEnds .down ha hb hne
  obtain ⟨hup, hallup⟩ := hr.consistent.walk_deadEnds .up ha hb hne
  obtain ⟨hd, h⟩ | ⟨hd, hu, h⟩ | ⟨hd, hu, h⟩ := r.compare_cases hne
  · -- the way down led to the other group, so the way up was not walked
    refine ⟨.higher, _, [], ?_, hdown, ⟨nofun, List.nodup_nil⟩, fun _ => rfl, ?_, nofun⟩
    · rw [List.append_nil]
      exact h.collect
    · exact fun hhigher => absurd rfl hhigher
  · refine ⟨.lower, _, _, ?_, hdown, hup, nofun, fun _ => halldown hd, nofun⟩
    rw [List.map_append]
    exact h.collect
  · refine ⟨.unordered, _, _, ?_, hdown, hup, nofun, fun _ => halldown hd, fun _ => hallup hu⟩
    rw [List.map_append]
    exact h.collect

/-- Groups with relations to names without a group, some of them related to the same name. -/
def danglingGroups : List PrecedenceGroup :=
  [.declare "low" .none ["x"] [] false { line := some 1 },
    .declare "mid" .left ["low", "x"] ["y"] false { line := some 2 },
    .declare "top" .none ["mid"] ["y", "z"] false { line := some 3 },
    .declare "apart" .none [] ["x"] false { line := some 4 }]

/-- The registry of those groups. -/
def dangling : Registry :=
  (danglingGroups.map fun g => .declaration (.group g)).foldl recordItem .empty

/-- Two groups that have no order are compared along all dead ends of the first one: one below it,
to which a lower group relates too, and two above it, one of them that of a higher group. -/
theorem compare_dangling :
    dangling.Reachable ∧ ∃ low mid top apart, dangling.groups = [low, mid, top, apart] ∧
      mid.name ≠ apart.name ∧
      (dangling.compare (.declared mid) (.declared apart)).collect =
        .ok ⟨.unordered, [.missingGroup "x" mid.span, .missingGroup "y" mid.span,
          .missingGroup "z" top.span]⟩ ∧
      (∀ e, dangling.DeadEnd .down mid e → e.target ∈ ["x", "y", "z"]) ∧
      ∀ e, dangling.DeadEnd .up mid e → e.target ∈ ["x", "y", "z"] := by
  have hr : dangling.Reachable := Reachable.empty.record _
  refine ⟨hr, _, _, _, _, rfl, by decide, ?_⟩
  obtain ⟨o, down, up, hrun, -, -, -, hdown, hup⟩ := compare_deadEnds hr
    (a := .declare "mid" .left ["low", "x"] ["y"] false { line := some 2 })
    (b := .declare "apart" .none [] ["x"] false { line := some 4 })
    (by decide) (by decide) (by decide)
  have ho : o = .unordered := (Reporting.value_of_collect hrun).symm.trans (by decide +kernel)
  have herrors : (down ++ up).map (fun e => PrecedenceError.missingGroup e.target e.span) =
      [⟨"x", { line := some 2 }⟩, ⟨"y", { line := some 2 }⟩, ⟨"z", { line := some 3 }⟩].map
        fun e : Edge => .missingGroup e.target e.span :=
    (Reporting.errors_of_collect hrun).symm.trans (by decide +kernel)
  have hnames : down.map (·.target) ++ up.map (·.target) = ["x", "y", "z"] := by
    have hinjective : Function.Injective
        fun e : Edge => PrecedenceError.missingGroup e.target e.span := by
      rintro ⟨_, _⟩ ⟨_, _⟩ heq
      cases heq
      rfl
    rw [← List.map_append, hinjective.list_map herrors]
    rfl
  rw [ho, herrors] at hrun
  refine ⟨hrun, fun e he => ?_, fun e he => ?_⟩
  · rw [← hnames]
    exact List.mem_append_left _ (hdown (ho ▸ nofun) e he)
  · rw [← hnames]
    exact List.mem_append_right _ (hup ho e he)

end OperatorFold.Registry
