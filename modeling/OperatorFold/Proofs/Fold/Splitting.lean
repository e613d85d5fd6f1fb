import OperatorFold.Proofs.Fold.Shape

/-! # Operators that split a sequence

The implicit level lies below all declared ones. An operator of this level makes everything in front
of it combine, so it finds one operand on its left; and it keeps waiting for every operator of a
declared level, so what follows it is read as if it stood alone. Neither comparison reports
anything. So the fold is that of the two sides with this operator between them, and the errors of
the two sides are those that each has by itself (`foldSequence_split`).
-/

namespace OperatorFold

open Reporting Grouping

namespace Registry

variable {r : Registry} {d o use : OperatorUse} {resolution : List PrecedenceError}

/-! ## The implicit level -/

/-- An operator folds at the implicit level, with these errors: it is not declared, it is declared
without a group, or no group has the name that it is declared with. -/
inductive FoldsImplicitly (r : Registry) (use : OperatorUse) : List PrecedenceError → Prop
  | undeclared (h : r.operator? use.name .infixOp = none) :
      FoldsImplicitly r use [.missingOperator use.name use.span]
  | groupless {op : Operator} (h : r.operator? use.name .infixOp = some op)
      (hgroup : op.groupName = none) : FoldsImplicitly r use []
  | dangling {op : Operator} {name : String} (h : r.operator? use.name .infixOp = some op)
      (hgroup : op.groupName = some name) (hmissing : r.group? name = none) :
      FoldsImplicitly r use [.missingGroup name use.span]

/-- An operator that folds implicitly has the implicit level, with the errors on the way to it. -/
theorem FoldsImplicitly.yields (h : r.FoldsImplicitly use resolution) :
    Yields (r.levelOf use) .implicit resolution := by
  have hreported (e : PrecedenceError) :
      Yields (do report e; pure Level.implicit) .implicit [e] :=
    (yields_report e).bind (yields_pure Level.implicit)
  rw [levelOf]
  cases h with
  | undeclared h =>
    rw [h]
    exact hreported _
  | groupless h hgroup =>
    simp only [h, hgroup]
    exact yields_pure _
  | dangling h hgroup hmissing =>
    simp only [h, hgroup, hmissing]
    exact hreported _

theorem FoldsImplicitly.level_eq (h : r.FoldsImplicitly use resolution) :
    r.level use = .implicit := h.yields.value_eq

/-- Every other operator folds at the level of a declared group. -/
theorem exists_level_eq_declared (h : ∀ es, ¬r.FoldsImplicitly use es) :
    ∃ g, r.level use = .declared g := by
  obtain ⟨hop, -⟩ | ⟨op, hop, hgroup, -⟩ | ⟨op, name, hop, hgroup, hmissing, -⟩ |
    ⟨op, name, g, -, -, -, hlevel⟩ := r.levelOf_cases use
  · exact absurd (.undeclared hop) (h _)
  · exact absurd (.groupless hop hgroup) (h _)
  · exact absurd (.dangling hop hgroup hmissing) (h _)
  · exact ⟨g, hlevel.value_eq⟩

/-! ## Comparisons with the implicit level -/

/-- Everything combines before an operator of the implicit level, and nothing is reported. -/
theorem yields_shouldCombine_implicit (hd : r.level d = .implicit) (p : OperatorUse) :
    Yields (r.shouldCombine (r.pending p) (r.pending d)) true [] := by
  have hasked := r.yields_shouldCombine_order p d
  rw [conflicting, hd] at hasked
  cases hp : r.level p with
  | implicit => rw [hp] at hasked; exact hasked
  | declared g => rw [hp] at hasked; exact hasked

/-- An implicit operator combines all that waits. -/
theorem combines_of_implicit (hd : r.level d = .implicit) (p : OperatorUse) :
    r.combines p d = true :=
  (yields_shouldCombine_implicit hd p).value_eq

/-- An operator of the implicit level keeps waiting for one of a declared level, and nothing is
reported. -/
theorem yields_shouldCombine_declared {g : PrecedenceGroup} (hd : r.level d = .implicit)
    (ho : r.level o = .declared g) :
    Yields (r.shouldCombine (r.pending d) (r.pending o)) false [] := by
  have hasked := r.yields_shouldCombine_order d o
  rw [conflicting, hd, ho] at hasked
  exact hasked

/-- An implicit operator is compared without an error. -/
theorem settleErrors_of_implicit (hd : r.level d = .implicit)
    (below : Waiting Node OperatorUse) : r.settleErrors d below = [] := by
  induction below with
  | nil => rfl
  | cons entry below ih =>
    obtain ⟨left, p⟩ := entry
    rw [settleErrors, (yields_shouldCombine_implicit hd p).errors_eq, ih, ite_self]
    rfl

/-! ## The errors of a scan -/

/-- The errors of two scans in a row are those of the first and then those of the second, from where
the first one ends. -/
theorem scanErrors_append (r : Registry) (rest more : List (OperatorUse × Node))
    (below : Waiting Node OperatorUse) (t : Grouping Node OperatorUse) :
    r.scanErrors (rest ++ more) below t =
      r.scanErrors rest below t ++
        r.scanErrors more (advance r.combines rest below t).1
          (advance r.combines rest below t).2 := by
  induction rest generalizing below t with
  | nil => rfl
  | cons entry rest ih =>
    obtain ⟨o, n⟩ := entry
    rw [List.cons_append, scanErrors, scanErrors, ih, advance, List.append_assoc, List.append_assoc]

/-- What lies at the bottom of a stack does not show where no comparison with it reports
anything. -/
theorem settleErrors_append {bottom : Waiting Node OperatorUse}
    (h : r.settleErrors o bottom = []) (below : Waiting Node OperatorUse) :
    r.settleErrors o (below ++ bottom) = r.settleErrors o below := by
  induction below with
  | nil => exact h
  | cons entry below ih =>
    obtain ⟨left, p⟩ := entry
    rw [List.cons_append, settleErrors, settleErrors, ih]

/-- What waits at the bottom without an error changes nothing in the errors. -/
theorem scanErrors_append_stack {rest : List (OperatorUse × Node)}
    {bottom : Waiting Node OperatorUse}
    (h : ∀ entry ∈ rest, KeepsWaiting r.combines bottom entry.1 ∧
      r.settleErrors entry.1 bottom = [])
    (below : Waiting Node OperatorUse) (t : Grouping Node OperatorUse) :
    r.scanErrors rest (below ++ bottom) t = r.scanErrors rest below t := by
  -- on the row: no operator combines what is at the bottom, and none reports an error about it
  induction rest generalizing below t with
  | nil => rfl
  | cons entry rest ih =>
    obtain ⟨o, n⟩ := entry
    rw [List.forall_mem_cons] at h
    obtain ⟨⟨hwaits, hsilent⟩, hrest⟩ := h
    rw [scanErrors, settle_append hwaits, settleErrors_append hsilent, scanErrors]
    have hmore := ih hrest ((((Grouping.settle r.combines o below t).2, o) ::
      (Grouping.settle r.combines o below t).1)) (operand n)
    rw [← hmore]
    rfl

/-! ## The two sides -/

section Sides

variable {rest more : List (OperatorUse × Node)}

/-- An operator of the implicit level keeps waiting at the bottom of the stack, unnoticed by what is
read behind it. -/
theorem waits_at_bottom (hd : r.level d = .implicit)
    (hmore : ∀ entry ∈ more, ∃ g, r.level entry.1 = .declared g)
    (left : Grouping Node OperatorUse) :
    ∀ entry ∈ more, KeepsWaiting r.combines [(left, d)] entry.1 ∧
      r.settleErrors entry.1 [(left, d)] = [] := by
  intro entry hentry
  obtain ⟨g, hg⟩ := hmore entry hentry
  have hasked := yields_shouldCombine_declared hd hg
  have hwaits : r.combines d entry.1 = false := hasked.value_eq
  constructor
  · intro below hbelow
    cases hbelow
    exact hwaits
  · rw [settleErrors, hasked.errors_eq, hwaits]
    rfl

/-- The last implicit operator is the root, over the groupings on both sides. -/
theorem grouping_split (hd : r.level d = .implicit)
    (hmore : ∀ entry ∈ more, ∃ g, r.level entry.1 = .declared g) (first second : Node) :
    r.grouping first (rest ++ (d, second) :: more) =
      operation (r.grouping first rest) d (r.grouping second more) := by
  have hbottom := waits_at_bottom hd hmore (r.grouping first rest)
  -- `d` empties the stack that the left side has left, and then the right side is read above `d`
  rw [grouping, group, scan_append, Grouping.scan,
    settle_of_combines (combines_of_implicit hd), plug_advance]
  exact scan_append_stack (fun entry hentry => (hbottom entry hentry).1) [] (operand second)

/-- The errors around the last implicit operator are those of both sides, with its own between
them. -/
theorem foldErrors_split (hd : r.FoldsImplicitly d resolution)
    (hmore : ∀ entry ∈ more, ∃ g, r.level entry.1 = .declared g) (first second : Node) :
    r.foldErrors first (rest ++ (d, second) :: more) =
      r.foldErrors first rest ++ resolution ++ r.foldErrors second more := by
  have hbottom := waits_at_bottom hd.level_eq hmore (r.grouping first rest)
  rw [foldErrors, scanErrors_append, scanErrors, hd.yields.errors_eq,
    settleErrors_of_implicit hd.level_eq, settle_of_combines (combines_of_implicit hd.level_eq),
    plug_advance, List.append_assoc]
  exact congrArg (fun es => r.foldErrors first rest ++ (resolution ++ es))
    (scanErrors_append_stack hbottom [] (operand second))

end Sides

/-- **An operator of the implicit level splits a sequence.** Let no operator behind it be of this
level. Then the fold of the whole is the operation of the folds of both sides, and its errors are
those of the left side, those of resolving this operator, and those of the right side. -/
theorem foldSequence_split (r : Registry) {before after : List Node}
    (hbefore : Node.sequenceFault before = none) (hafter : Node.sequenceFault after = none)
    (hbare : Node.bare ∉ before ++ after) (hd : r.FoldsImplicitly d resolution)
    (hdeclared : ∀ o, .operator o ∈ after → ∀ es, ¬r.FoldsImplicitly o es) :
    ∃ (left right : Outcome Node) (span : Span),
      (r.foldSequence before).collect = .ok left ∧
      (r.foldSequence after).collect = .ok right ∧ left.value.span? = some span ∧
      (r.foldSequence (before ++ .operator d :: after)).collect =
        .ok ⟨.binary left.value (.operator d) right.value span,
          left.errors ++ resolution ++ right.errors⟩ := by
  obtain ⟨first, rest, rfl⟩ := Node.exists_spell hbefore
  obtain ⟨second, more, rfl⟩ := Node.exists_spell hafter
  have helements : (first :: Node.spell rest) ++ .operator d :: second :: Node.spell more =
      first :: Node.spell (rest ++ (d, second) :: more) := by
    rw [Node.spell_append, Node.spell_cons, List.cons_append]
  -- none of the operators on the right folds implicitly, so all of them have a group
  have hmore : ∀ entry ∈ more, ∃ g, r.level entry.1 = .declared g := fun entry hentry =>
    exists_level_eq_declared
      (hdeclared entry.1 (Node.mem_cons_spell.mpr (.inr ⟨entry, hentry, rfl⟩)))
  obtain ⟨hleft, hright⟩ := not_or.mp (List.mem_append.not.mp hbare)
  have hwhole : Node.bare ∉ first :: Node.spell (rest ++ (d, second) :: more) := by
    rw [← helements]
    intro hmem
    rcases List.mem_append.mp hmem with hmem | hmem
    · exact hleft hmem
    · exact hright ((List.mem_cons.mp hmem).resolve_left nofun)
  -- the left part is not bare, and it hands its span on to the whole
  have hplaced : (r.grouping first rest).Placed := by
    intro n hn hn'
    rw [← r.elements_grouping first rest] at hleft
    exact hleft (mem_elements.mpr (.inl (hn' ▸ hn)))
  have hfold := r.yields_foldSequence hwhole
  rw [grouping_split hd.level_eq hmore, foldErrors_split hd hmore] at hfold
  rw [helements]
  exact ⟨_, _, _, (r.yields_foldSequence hleft).collect, (r.yields_foldSequence hright).collect,
    hplaced.span, hfold.collect⟩

/-- The elements of `a ~ b ~ c`. -/
def apartChain : List Node :=
  .name "a" .unknown :: Node.spell
    [(⟨"~", .unknown⟩, .name "b" .unknown), (⟨"~", .unknown⟩, .name "c" .unknown)]

/-- An operator that is not declared stands between two sequences with errors of their own. -/
theorem foldSequence_split_unrelatedChain :
    Node.sequenceFault unrelatedChain = none ∧ Node.sequenceFault apartChain = none ∧
      Node.bare ∉ unrelatedChain ++ apartChain ∧
      unrelated.FoldsImplicitly ⟨"?", .unknown⟩ [.missingOperator "?" .unknown] ∧
      (∀ o, .operator o ∈ apartChain → ∀ es, ¬unrelated.FoldsImplicitly o es) ∧
      ∃ left right span,
        (unrelated.foldSequence
            (unrelatedChain ++ .operator ⟨"?", .unknown⟩ :: apartChain)).collect =
          .ok ⟨.binary left (.operator ⟨"?", .unknown⟩) right span,
            unrelatedPairs ++ [.missingOperator "?" .unknown] ++
              [.incomparableOperators ⟨"~", .unknown⟩ "apart" ⟨"~", .unknown⟩ "apart"]⟩ := by
  have hleft : Node.sequenceFault unrelatedChain = none := by decide
  have hright : Node.sequenceFault apartChain = none := by decide
  have hbare : Node.bare ∉ unrelatedChain ++ apartChain := by
    simp [unrelatedChain, apartChain, Node.spell]
  have hd : unrelated.FoldsImplicitly ⟨"?", .unknown⟩ [.missingOperator "?" .unknown] :=
    .undeclared (by decide)
  have hdeclared : ∀ o, .operator o ∈ apartChain → ∀ es, ¬unrelated.FoldsImplicitly o es := by
    intro o ho es himplicit
    have ho : o = ⟨"~", .unknown⟩ := by simpa [apartChain, Node.spell] using ho
    have hlevel : unrelated.level ⟨"~", .unknown⟩ ≠ .implicit := by decide +kernel
    exact hlevel (ho ▸ himplicit.level_eq)
  obtain ⟨left, right, span, hbefore, hafter, -, hfold⟩ :=
    foldSequence_split unrelated hleft hright hbare hd hdeclared
  have hes : left.errors = unrelatedPairs :=
    (errors_of_collect hbefore).symm.trans (by decide +kernel)
  have hes' : right.errors =
      [.incomparableOperators ⟨"~", .unknown⟩ "apart" ⟨"~", .unknown⟩ "apart"] :=
    (errors_of_collect hafter).symm.trans (by decide +kernel)
  rw [hes, hes'] at hfold
  exact ⟨hleft, hright, hbare, hd, hdeclared, _, _, span, hfold⟩

end Registry

end OperatorFold
