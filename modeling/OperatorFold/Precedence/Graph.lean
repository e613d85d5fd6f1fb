import OperatorFold.Precedence.Registry
import OperatorFold.Reporting

/-! # The order of groups

Groups form a directed graph: a group has an edge down to every group that it says it is higher than
and to every group that says it is lower than it. A declared group is higher than another if a path
leads down to it, and lower if a path leads up to it. The order is partial: two groups without a
path between them are unordered, and nothing is made up for them. The implicit level is below all
declared groups.

A walk starts at a group and follows edges in one direction until it meets the group it looks for. A
name without a group is a dead end and is reported. A walk remembers the names it has seen, so it
ends on cycles too and reports a name once.
-/

namespace OperatorFold

/-- How one group stands to another. -/
inductive Order where
  | higher
  | lower
  | equal
  | unordered
deriving DecidableEq, Inhabited

/-- The word for an order. -/
def Order.text : Order → String
  | higher => "higher"
  | lower => "lower"
  | equal => "equal"
  | unordered => "unordered"

/-- The direction of a walk. -/
inductive Direction where
  | down
  | up
deriving DecidableEq, Inhabited

/-- The relation by which a group itself declares an edge in a direction. -/
def Direction.kind : Direction → RelationKind
  | down => .higherThan
  | up => .lowerThan

/-- An edge to a group by name, with the place where it was declared. -/
structure Edge where
  target : String
  span : Span
deriving DecidableEq, Inhabited

/-- The state of a walk: the names seen, the groups met and not yet left (last first), the dead ends
in the order in which they were met, and the names of the groups left (last first). -/
structure Walk where
  seen : List String
  pending : List PrecedenceGroup
  missing : List Edge := []
  expanded : List String := []
deriving Inhabited

namespace Registry

/-- The edges of a group: those it declares, then those that other groups declare to it. -/
def edges (r : Registry) (d : Direction) (g : PrecedenceGroup) : List Edge :=
  (g.relationsOf d.kind).map (fun rel => ⟨rel.target, rel.span⟩) ++
    (r.relatedTo d.kind.flip g.name).map fun other => ⟨other.name, other.span⟩

/-- Follows edges one after another; ends with true as soon as one leads to the target. -/
def follow (r : Registry) (target : String) : List Edge → Walk → Walk × Bool
  | [], w => (w, false)
  | e :: rest, w =>
    if e.target ∈ w.seen then follow r target rest w
    else
      let w := { w with seen := e.target :: w.seen }
      if e.target = target then (w, true)
      else
        match r.group? e.target with
        | none => follow r target rest { w with missing := w.missing ++ [e] }
        | some g => follow r target rest { w with pending := g :: w.pending }

/-- How many of the registered groups a walk has not seen. -/
def unseen (r : Registry) (seen : List String) : Nat :=
  (r.groups.filter (·.name ∉ seen)).length

theorem unseen_cons_le (r : Registry) (name : String) (seen : List String) :
    r.unseen (name :: seen) ≤ r.unseen seen := by
  simp only [unseen, ← List.countP_eq_length_filter]
  apply List.countP_mono_left
  intro g _ h
  simp_all

theorem unseen_cons_lt {r : Registry} {name : String} {seen : List String} {g : PrecedenceGroup}
    (hg : r.group? name = some g) (hn : name ∉ seen) :
    r.unseen (name :: seen) < r.unseen seen := by
  have hname : g.name = name := by simpa using List.find?_some hg
  obtain ⟨before, after, hsplit⟩ := List.append_of_mem (List.mem_of_find?_eq_some hg)
  have hle (groups : List PrecedenceGroup) :
      groups.countP (·.name ∉ name :: seen) ≤ groups.countP (·.name ∉ seen) :=
    List.countP_mono_left fun g _ h => by simp_all
  have hnew : decide (g.name ∉ name :: seen) = false := by simp [hname]
  have hold : decide (g.name ∉ seen) = true := by simp [hname, hn]
  have hbefore := hle before
  have hafter := hle after
  simp only [unseen, ← List.countP_eq_length_filter, hsplit, List.countP_append, List.countP_cons,
    hnew, hold, Bool.false_eq_true, if_false, if_true]
  omega

theorem follow_measure_le (r : Registry) (target : String) (es : List Edge) (w : Walk) :
    r.unseen (r.follow target es w).1.seen + (r.follow target es w).1.pending.length ≤
      r.unseen w.seen + w.pending.length := by
  induction es generalizing w with
  | nil => simp [follow]
  | cons e rest ih =>
    have hle := r.unseen_cons_le e.target w.seen
    rw [follow]
    split
    · exact ih w
    · next hn =>
      simp only
      split
      · simp only; omega
      · split
        · exact Nat.le_trans (ih _) (by simpa using hle)
        · next g hg =>
          have hlt := unseen_cons_lt hg hn
          refine Nat.le_trans (ih _) ?_
          simp only [List.length_cons]
          omega

/-- Continues a walk until it meets the target or has nowhere left to go. -/
def walkFrom (r : Registry) (d : Direction) (target : String) (w : Walk) : Walk × Bool :=
  match _h : w.pending with
  | [] => (w, false)
  | g :: rest =>
    let start := { w with pending := rest, expanded := g.name :: w.expanded }
    let next := r.follow target (r.edges d g) start
    if next.2 then next else walkFrom r d target next.1
termination_by r.unseen w.seen + w.pending.length
decreasing_by
  have h := r.follow_measure_le target (r.edges d g)
    { w with pending := rest, expanded := g.name :: w.expanded }
  simp only [_h, List.length_cons] at h ⊢
  omega

/-- The walk from a group to the target. -/
def walk (r : Registry) (d : Direction) (start : PrecedenceGroup) (target : String) : Walk × Bool :=
  r.walkFrom d target { seen := [start.name], pending := [start] }

/-- Whether a path leads from a group to the target; dead ends on the way are reported. -/
def reaches (r : Registry) (d : Direction) (start : PrecedenceGroup) (target : String) :
    Reporting Bool := do
  let (w, found) := r.walk d start target
  .reportAll (w.missing.map fun e => .missingGroup e.target e.span)
  pure found

/-- How one level stands to another. -/
def compare (r : Registry) : Level → Level → Reporting Order
  | .implicit, .implicit => pure .equal
  | .implicit, .declared _ => pure .lower
  | .declared _, .implicit => pure .higher
  | .declared a, .declared b =>
    if a.name = b.name then pure .equal
    else do
      if ← r.reaches .down a b.name then pure .higher
      else if ← r.reaches .up a b.name then pure .lower
      else pure .unordered

/-- How the group of one name stands to that of another. A name stands equal to itself, declared or
not; other names that are not declared are reported, and leave the two unordered. -/
def compareNames (r : Registry) (a b : String) : Reporting Order :=
  if a = b then pure .equal
  else
    match r.group? a, r.group? b with
    | some ga, some gb => r.compare (.declared ga) (.declared gb)
    | ga, gb => do
      if ga.isNone then .report (.missingGroup a .unknown)
      if gb.isNone then .report (.missingGroup b .unknown)
      pure .unordered

end Registry

end OperatorFold
