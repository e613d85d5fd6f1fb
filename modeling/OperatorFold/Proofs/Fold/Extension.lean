import OperatorFold.Proofs.Fold.InOrder
import OperatorFold.Proofs.Fold.Missing
import OperatorFold.Proofs.Fold.Transfer
import OperatorFold.Proofs.Precedence.Growth
import OperatorFold.Proofs.Precedence.Reordering

/-! # Folds under registries that grow

A fold that finds every operator declared and no two of them incomparable rests on comparisons that
all came out `higher`, `lower` or, in a group with an associativity, `equal`. In a larger registry
the operators have the same levels and these comparisons come out the same, unless two levels have
come to stand above each other (`Extends.decides_alike`). So each sequence keeps its grouping, for
that depends on nothing but the operators that touch (`Grouping.Settled.of_agree`).
-/

namespace OperatorFold

open Reporting

/-- A grouping without conflicts stays settled and without conflicts if all decisions about
operators that are not in conflict stay the same. -/
theorem Grouping.Settled.of_agree {α β : Type} {combines combines' conflicting conflicting' :
    β → β → Bool} {t : Grouping α β} (ht : t.Settled combines)
    (hnone : t.conflicts conflicting = [])
    (hcombines : ∀ p o, conflicting p o = true → combines p o = true)
    (hagree : ∀ p ∈ t.operators, ∀ o ∈ t.operators, conflicting p o = false →
      combines' p o = combines p o ∧ conflicting' p o = false) :
    t.Settled combines' ∧ t.conflicts conflicting' = [] := by
  induction t with
  | operand a => exact ⟨trivial, rfl⟩
  | operation left op right ihl ihr =>
    obtain ⟨hleft, hright, htl, htr⟩ := ht
    rw [conflicts, List.append_eq_nil_iff, List.append_eq_nil_iff] at hnone
    obtain ⟨⟨hnonel, hnone⟩, hnoner⟩ := hnone
    have hl {p : β} (hp : p ∈ left.operators) : p ∈ (operation left op right).operators :=
      List.mem_append_left _ hp
    have hr {q : β} (hq : q ∈ right.operators) : q ∈ (operation left op right).operators :=
      List.mem_append_right _ (List.mem_cons_of_mem _ hq)
    have hop : op ∈ (operation left op right).operators :=
      List.mem_append_right _ List.mem_cons_self
    have htouch : ∀ p ∈ left.rightSpine, combines' p op = combines p op ∧
        conflicting' p op = false := by
      intro p hp
      refine hagree p (hl (rightSpine_subset left hp)) op hop ?_
      by_contra hconflict
      have hmem : (p, op) ∈ left.conflictsWith conflicting op :=
        mem_conflictsWith.mpr ⟨hp, rfl, Bool.not_eq_false _ ▸ hconflict⟩
      rw [hnone] at hmem
      cases hmem
    obtain ⟨hsettledl, hconflictsl⟩ := ihl htl hnonel fun p hp o ho => hagree p (hl hp) o (hl ho)
    obtain ⟨hsettledr, hconflictsr⟩ := ihr htr hnoner fun p hp o ho => hagree p (hr hp) o (hr ho)
    refine ⟨⟨?_, ?_, hsettledl, hsettledr⟩, ?_⟩
    · intro p hp
      rw [(htouch p hp).1]
      exact hleft p hp
    · intro q hq
      have hwait : combines op q = false := hright q hq
      -- what keeps waiting is not in conflict with what comes in
      have hfree : conflicting op q = false := by
        by_contra hconflict
        rw [hcombines op q (Bool.not_eq_false _ ▸ hconflict)] at hwait
        cases hwait
      rw [(hagree op hop q (hr (leftSpine_subset right hq)) hfree).1]
      exact hwait
    · rw [conflicts, hconflictsl, hconflictsr, List.nil_append, List.append_nil,
        List.eq_nil_iff_forall_not_mem]
      rintro ⟨p, o⟩ hmem
      obtain ⟨hp, rfl, hconflict⟩ := mem_conflictsWith.mp hmem
      rw [(htouch p hp).2] at hconflict
      cases hconflict

namespace Registry

open Grouping

variable {r r' : Registry}

/-! ## Clear folds -/

/-- An error about no operator: neither is one missing nor are two incomparable. -/
def Clear (e : PrecedenceError) : Prop := e.isMissingOperator = false ∧ e.isIncomparable = false

/-- All errors are clear if none is of a missing or of an incomparable operator. -/
theorem forall_clear_iff {es : List PrecedenceError} :
    (∀ e ∈ es, Clear e) ↔
      es.filter (·.isMissingOperator) = [] ∧ es.filter (·.isIncomparable) = [] := by
  simp only [Clear, List.filter_eq_nil_iff, Bool.not_eq_true]
  exact forall₂_and

/-- No two of the levels that operators have stand above each other. -/
def Ordered (r : Registry) (U : OperatorUse → Prop) : Prop :=
  ∀ p o, U p → U o →
    ¬(r.order (r.level p) (r.level o) = .higher ∧ r.order (r.level o) (r.level p) = .higher)

/-! ## Sequences -/

namespace Extends

variable (h : r.Extends r') (hr : r.Consistent) (hr' : r'.Consistent)
include h hr hr'

/-- Operators without a conflict are settled as before. -/
theorem decides_alike {p o : OperatorUse} (hp : r.Resolves p) (ho : r.Resolves o)
    (hmutual : ¬(r'.order (r'.level p) (r'.level o) = .higher ∧
      r'.order (r'.level o) (r'.level p) = .higher)) (hfree : r.conflicting p o = false) :
    r'.combines p o = r.combines p o ∧ r'.conflicting p o = false := by
  rw [h.level_eq hp, h.level_eq ho] at hmutual
  have hordered : r.order (r.level o) (r.level p) ≠ .unordered := by
    intro hno
    rw [conflicting, hno] at hfree
    cases hfree
  have horder := h.order_eq hr hr' (r.registered_level o) (r.registered_level p) hordered
    fun hboth => hmutual hboth.symm
  rw [conflicting, h.level_eq hp, h.level_eq ho, horder]
  refine ⟨?_, hfree⟩
  rw [combines_eq, combines_eq, h.level_eq hp, h.level_eq ho, horder]

/-- Sequences whose operators are at most missing groups keep their folds. -/
theorem foldsAlike {U : OperatorUse → Prop}
    (hgroups : ∀ use, U use → r.missingOperator? use = none → r.Resolves use)
    (hordered : r'.Ordered U) :
    r.FoldsAlike r' U Clear fun _ es' => ∀ e ∈ es', Clear e := by
  intro elements m es hseq hbare huses hfold hclear
  obtain ⟨first, rest, rfl⟩ := Node.exists_spell hseq
  cases hfold.collect.symm.trans (r.yields_foldSequence hbare).collect
  obtain ⟨hmissing, hincomparable⟩ := forall_clear_iff.mp hclear
  rw [filter_foldErrors_missingOperator, List.filterMap_eq_nil_iff] at hmissing
  rw [filter_foldErrors, List.map_eq_nil_iff] at hincomparable
  -- no operator was missing, so each of them has a level that no later load can change
  have hresolves : ∀ entry ∈ rest, U entry.1 ∧ r.Resolves entry.1 := by
    intro entry hentry
    have huse : U entry.1 :=
      huses entry.1 (Node.mem_cons_spell.mpr (.inr ⟨entry, hentry, rfl⟩))
    exact ⟨huse, hgroups entry.1 huse (hmissing entry hentry)⟩
  have hoperators : ∀ use ∈ (r.grouping first rest).operators, U use ∧ r.Resolves use := by
    intro use huse
    rw [operators_eq, grouping, group_rest] at huse
    obtain ⟨entry, hentry, rfl⟩ := List.mem_map.mp huse
    exact hresolves entry hentry
  have hgrouping : (r.grouping first rest).Settled r.combines := settled_group first rest
  -- the old grouping is settled under the new registry, too, and so it is the one that is found
  obtain ⟨hsettled, hconflicts⟩ := hgrouping.of_agree hincomparable
    (fun p o => r.combines_of_conflicting) fun p hp o ho =>
      h.decides_alike hr hr' (hoperators p hp).2 (hoperators o ho).2
        (hordered p o (hoperators p hp).1 (hoperators o ho).1)
  have hsame : r'.grouping first rest = r.grouping first rest := by
    have hgroup := hsettled.group_eq
    rw [grouping, group_first, group_rest] at hgroup
    exact hgroup
  have hfold' := r'.yields_foldSequence hbare
  rw [hsame] at hfold'
  refine ⟨_, hfold', forall_clear_iff.mpr ⟨?_, ?_⟩⟩
  · rw [filter_foldErrors_missingOperator, List.filterMap_eq_nil_iff]
    intro entry hentry
    obtain ⟨op, hop, -⟩ := (hresolves entry hentry).2
    rw [missingOperator?, h.operator?_eq_some hop]
  · rw [filter_foldErrors, hsame, hconflicts, List.map_nil]

end Extends

/-! ## Trees -/

/-- **Further loads change no clear fold.** Let loads add to a registry that loads have built.
Comparisons that came to `higher` still do. And let a tree fold, before, without an operator missing
and without two that are incomparable, and let every operator of it that names a group name one that
was declared then. If no two of the levels that its operators have now stand above each other, it
folds to the same tree now, and again without either kind of error. -/
theorem foldTree_grows (hr : r.Reachable) (hgrows : r.Grows r') :
    (∀ a b es, (r.compare a b).collect = .ok ⟨.higher, es⟩ →
      ∃ es', (r'.compare a b).collect = .ok ⟨.higher, es'⟩) ∧
    ∀ n outcome, n.WellFormed → (r.foldTree n).collect = .ok outcome →
      (∀ e ∈ outcome.errors, Clear e) →
      (∀ use op name, n.Uses use → r.operator? use.name .infixOp = some op →
        op.groupName = some name → ∃ g, r.group? name = some g) →
      r'.Ordered n.Uses →
      ∃ es', (r'.foldTree n).collect = .ok ⟨outcome.value, es'⟩ ∧ ∀ e ∈ es', Clear e := by
  have h := hgrows.extends
  have hcons := hr.consistent
  have hcons' := (hgrows.reachable hr).consistent
  constructor
  · intro a b es hrun
    have hab : r.order a b = .higher := value_of_collect hrun
    refine ⟨(r'.compare a b).errors, ?_⟩
    rw [(r'.yields_compare a b).collect, h.order_higher hcons hcons' hab]
  · intro n outcome hn hrun hclear hgroups hordered
    -- an operator of the tree that is declared and whose group is there has its level found
    have hresolves : ∀ use, n.Uses use → r.missingOperator? use = none → r.Resolves use := by
      intro use huse hdeclared
      cases hop : r.operator? use.name .infixOp with
      | none =>
        rw [missingOperator?, hop] at hdeclared
        cases hdeclared
      | some op => exact ⟨op, hop, fun name => hgroups use op name huse hop⟩
    obtain ⟨hfolds, hkept⟩ := folds_of_collect hrun
    have halike := h.foldsAlike hcons hcons' hresolves hordered
    obtain ⟨es', hfolds', hclear'⟩ := hfolds.transfer (List.forall_mem_nil _)
      (fun hes hmore e he => (List.mem_append.mp he).elim (hes e) (hmore e)) hn halike hclear
    refine ⟨es', ?_, hclear'⟩
    rw [hfolds'.yields_foldTree.collect, ← hkept]

/-- A registry in which products are above sums and above a group that is not declared yet. -/
def early : Registry :=
  holding [.group (.declare "sum" .left [] [] false .unknown),
    .group (.declare "product" .left ["later", "sum"] [] false .unknown),
    .operator { name := "+", groupName := some "sum" },
    .operator { name := "*", groupName := some "product" }]

/-- It is declared here, above sums, next to a group that is above products and one taken name. -/
def lateItems : List (Item Node) :=
  [.declaration (.group (.declare "later" .none ["sum"] [] false .unknown)),
    .declaration (.group (.declare "sum" .right ["product"] [] false .unknown)),
    .declaration (.group (.declare "power" .right ["product"] [] false .unknown))]

/-- The registry that knows both. -/
def late : Registry := lateItems.foldl recordItem early

/-- The statement `v + w * x`. -/
def earlyStatement : Node :=
  .statement (.sequence [.name "v" .unknown, .operator ⟨"+", .unknown⟩, .name "w" .unknown,
    .operator ⟨"*", .unknown⟩, .name "x" .unknown] .unknown) .unknown

/-- The group that was missing when the statement was folded first is there in the end, and the fold
is the same. -/
theorem foldTree_grows_early :
    early.Reachable ∧ early.Grows late ∧ earlyStatement.WellFormed ∧
      (∃ es, (late.compare (late.level ⟨"*", .unknown⟩) (late.level ⟨"+", .unknown⟩)).collect =
        .ok ⟨.higher, es⟩) ∧
      ∃ s, (early.foldTree earlyStatement).collect =
          .ok ⟨s, [.missingGroup "later" .unknown]⟩ ∧
        (late.foldTree earlyStatement).collect = .ok ⟨s, []⟩ := by
  have hr : early.Reachable := Reachable.empty.record _
  have hgrows : early.Grows late := Grows.refl.record _
  have hn : earlyStatement.WellFormed := by
    simp [earlyStatement, Node.sequenceFault, Node.misplacedFrom, Node.isOperator]
  obtain ⟨hhigher, hfolds⟩ := foldTree_grows hr hgrows
  have horder :
      early.order (late.level ⟨"*", .unknown⟩) (late.level ⟨"+", .unknown⟩) = .higher := by
    decide +kernel
  have hcompare := (early.yields_compare (late.level ⟨"*", .unknown⟩)
    (late.level ⟨"+", .unknown⟩)).collect
  rw [horder] at hcompare
  have hgroups : ∀ use op name, earlyStatement.Uses use →
      early.operator? use.name .infixOp = some op → op.groupName = some name →
        ∃ g, early.group? name = some g := by
    intro use op name _ hop hname
    have hall : ∀ op ∈ early.operators, ∀ name ∈ op.groupName, (early.group? name).isSome := by
      decide +kernel
    exact Option.isSome_iff_exists.mp (hall op (List.mem_of_find?_eq_some hop) name hname)
  have hordered : late.Ordered earlyStatement.Uses := by
    intro p o _ _
    have hlevel (use : OperatorUse) : late.level use ∈ .implicit :: late.groups.map .declared := by
      cases hg : late.level use with
      | implicit => exact List.mem_cons_self
      | declared g =>
        exact List.mem_cons_of_mem _ (List.mem_map_of_mem (late.registered_level use g hg))
    have hall : ∀ a ∈ .implicit :: late.groups.map Level.declared,
        ∀ b ∈ .implicit :: late.groups.map Level.declared,
          ¬(late.order a b = .higher ∧ late.order b a = .higher) := by
      decide +kernel
    exact hall _ (hlevel p) _ (hlevel o)
  obtain ⟨m, es, hfold, -⟩ := early.exists_folds hn
  have hrun := hfold.yields_foldTree.collect
  have hes : es = [.missingGroup "later" .unknown] := by
    rw [← (hfold.yields_foldTree).errors_eq]
    decide +kernel
  rw [hes] at hrun
  have hclear : ∀ e ∈ [PrecedenceError.missingGroup "later" .unknown], Clear e := by
    intro e he
    rw [List.mem_singleton.mp he]
    exact ⟨rfl, rfl⟩
  obtain ⟨es', hrun', -⟩ := hfolds earlyStatement _ hn hrun hclear hgroups hordered
  have herrors : (late.foldTree earlyStatement).errors = es' := errors_of_collect hrun'
  have hes' : es' = [] := by
    rw [← herrors]
    decide +kernel
  rw [hes'] at hrun'
  exact ⟨hr, hgrows, hn, hhigher _ _ _ hcompare, _, hrun, hrun'⟩

end Registry

end OperatorFold
