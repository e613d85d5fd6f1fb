import OperatorFold.Proofs.Grouping.Scan

/-! # Groupings of one shape

Two groupings over different operands and operators have one shape if they differ only in what
stands at their leaves and nodes; `SameShape R` says this and that the operators at each node are
related by `R`. Where `R` decides how operators combine, two scans over sequences with related
operators go in step: their stacks have one shape all along, and so have the groupings that they
find (`Settled.sameShape`). The operands have no part in this.
-/

namespace OperatorFold.Grouping

variable {α β α' β' : Type}

/-- Two groupings of one shape, with related operators at each node. -/
inductive SameShape (R : β → β' → Prop) : Grouping α β → Grouping α' β' → Prop
  | operand (a : α) (a' : α') : SameShape R (operand a) (operand a')
  | operation {left right : Grouping α β} {left' right' : Grouping α' β'} {p : β} {p' : β'}
      (hleft : SameShape R left left') (hp : R p p') (hright : SameShape R right right') :
      SameShape R (operation left p right) (operation left' p' right')

/-- Two stacks that go in step. -/
abbrev SameStack (R : β → β' → Prop) : Waiting α β → Waiting α' β' → Prop :=
  List.Forall₂ fun entry entry' => entry.1.SameShape R entry'.1 ∧ R entry.2 entry'.2

section Scan

variable {R : β → β' → Prop} {combines : β → β → Bool} {combines' : β' → β' → Bool}
  {below : Waiting α β} {below' : Waiting α' β'} {t : Grouping α β} {t' : Grouping α' β'}

/-! ## Two scans in step -/

/-- Stacks of the same shape are plugged to groupings of the same shape. -/
theorem sameShape_plug (hbelow : SameStack R below below') (ht : t.SameShape R t') :
    (plug below t).SameShape R (plug below' t') := by
  induction hbelow generalizing t t' with
  | nil => exact ht
  | cons hentry _ ih => exact ih (.operation hentry.1 hentry.2 ht)

/-- If operators in the same places combine alike, the next one leaves stacks of the same shape, and
parts of the same shape on top. -/
theorem sameShape_settle
    (hcombines : ∀ {p p'}, R p p' → ∀ {o o'}, R o o' → combines p o = combines' p' o')
    {o : β} {o' : β'} (ho : R o o') (hbelow : SameStack R below below') (ht : t.SameShape R t') :
    SameStack R (settle combines o below t).1 (settle combines' o' below' t').1 ∧
      (settle combines o below t).2.SameShape R (settle combines' o' below' t').2 := by
  induction hbelow generalizing t t' with
  | nil => exact ⟨.nil, ht⟩
  | @cons entry entry' below below' hentry hbelow ih =>
    obtain ⟨left, p⟩ := entry
    obtain ⟨left', p'⟩ := entry'
    have hsame : combines p o = combines' p' o' := hcombines hentry.2 ho
    rw [settle, settle, hsame]
    split
    · exact ih (.operation hentry.1 hentry.2 ht)
    · exact ⟨.cons hentry hbelow, ht⟩

/-- So the scans of two rows of operators come to groupings of the same shape, operand for
operand. -/
theorem sameShape_scan
    (hcombines : ∀ {p p'}, R p p' → ∀ {o o'}, R o o' → combines p o = combines' p' o')
    {rest : List (β × α)} {rest' : List (β' × α')}
    (hrest : List.Forall₂ (fun entry entry' => R entry.1 entry'.1) rest rest')
    (hbelow : SameStack R below below') (ht : t.SameShape R t') :
    (scan combines rest below t).SameShape R (scan combines' rest' below' t') := by
  induction hrest generalizing below below' t t' with
  | nil => exact sameShape_plug hbelow ht
  | @cons entry entry' rest rest' ho _ ih =>
    obtain ⟨hsettled, hpart⟩ := sameShape_settle hcombines ho hbelow ht
    exact ih (.cons ⟨hpart, ho⟩ hsettled) (.operand entry.2 entry'.2)

/-- Settled groupings over related operators have one shape. -/
theorem Settled.sameShape
    (hcombines : ∀ {p p'}, R p p' → ∀ {o o'}, R o o' → combines p o = combines' p' o')
    (ht : t.Settled combines) (ht' : t'.Settled combines')
    (h : List.Forall₂ R t.operators t'.operators) : t.SameShape R t' := by
  rw [operators_eq, operators_eq, List.forall₂_map_left_iff, List.forall₂_map_right_iff] at h
  rw [← ht.group_eq, ← ht'.group_eq]
  exact sameShape_scan hcombines h .nil (.operand t.first t'.first)

end Scan

/-! ## What the shape decides -/

/-- The grouping of places: each operand and each operator is given by its place among the operands
and among the operators, counted from `n`. -/
def places : ℕ → Grouping α β → Grouping ℕ ℕ
  | n, operand _ => operand n
  | n, operation left _ right =>
    operation (left.places n) (n + left.operators.length)
      (right.places (n + left.operators.length + 1))

namespace SameShape

variable {R : β → β' → Prop} {t : Grouping α β} {t' : Grouping α' β'}

/-- Groupings of the same shape have as many operators. -/
theorem length_operators (h : t.SameShape R t') : t.operators.length = t'.operators.length := by
  induction h with
  | operand a a' => rfl
  | operation _ _ _ ihl ihr =>
    rw [operators, operators, List.length_append, List.length_append, List.length_cons,
      List.length_cons, ihl, ihr]

/-- Groupings of one shape have the same places below each node. -/
theorem places_eq (h : t.SameShape R t') (n : ℕ) : t.places n = t'.places n := by
  induction h generalizing n with
  | operand a a' => rfl
  | operation hleft _ _ ihl ihr => rw [places, places, hleft.length_operators, ihl, ihr]

/-- Groupings of the same shape are numbered alike. -/
theorem numbered (h : t.SameShape R t') (n : ℕ) :
    (t.numbered n).SameShape (fun p p' => R p.1 p'.1 ∧ p.2 = p'.2) (t'.numbered n) := by
  induction h generalizing n with
  | operand a a' => exact .operand a a'
  | operation hleft hp _ ihl ihr =>
    rw [Grouping.numbered, Grouping.numbered, hleft.length_operators]
    exact .operation (ihl n) ⟨hp, rfl⟩ (ihr _)

/-- Groupings of the same shape have right spines that match. -/
theorem rightSpine (h : t.SameShape R t') : List.Forall₂ R t.rightSpine t'.rightSpine := by
  induction h with
  | operand a a' => exact .nil
  | operation _ hp _ _ ihr => exact List.rel_append ihr (.cons hp .nil)

/-- Where `R` decides what is in conflict, the conflicts are those of related operators. -/
theorem conflicts {conflicting : β → β → Bool} {conflicting' : β' → β' → Bool}
    (h : t.SameShape R t')
    (hconflicting : ∀ {p p'}, R p p' → ∀ {o o'}, R o o' → conflicting p o = conflicting' p' o') :
    List.Forall₂ (fun pair pair' => R pair.1 pair'.1 ∧ R pair.2 pair'.2)
      (t.conflicts conflicting) (t'.conflicts conflicting') := by
  induction h with
  | operand a a' => exact .nil
  | @operation left right left' right' p p' hleft hp _ ihl ihr =>
    have hwith : List.Forall₂ (fun pair pair' => R pair.1 pair'.1 ∧ R pair.2 pair'.2)
        (left.conflictsWith conflicting p) (left'.conflictsWith conflicting' p') := by
      refine List.rel_map (fun _ _ hq => ⟨hq, hp⟩) (List.rel_filter ?_ hleft.rightSpine)
      exact fun _ _ hq => Bool.eq_iff_iff.mp (hconflicting hq hp)
    exact List.rel_append (List.rel_append ihl hwith) ihr

end SameShape

/-! ## Other operands -/

section Operands

variable {γ : Type} (f : ℕ → γ)

/-- The grouping over other operands: `f` gives each by its place, counted from `n`. -/
def replaceOperands : ℕ → Grouping α β → Grouping γ β
  | n, operand _ => operand (f n)
  | n, operation left op right =>
    operation (left.replaceOperands n) op (right.replaceOperands (n + left.operators.length + 1))

/-- Other operands leave the left spine as it is. -/
theorem leftSpine_replaceOperands (n : ℕ) (t : Grouping α β) :
    (t.replaceOperands f n).leftSpine = t.leftSpine := by
  induction t generalizing n with
  | operand a => rfl
  | operation left op right ihl _ => rw [replaceOperands, leftSpine, leftSpine, ihl]

theorem rightSpine_replaceOperands (n : ℕ) (t : Grouping α β) :
    (t.replaceOperands f n).rightSpine = t.rightSpine := by
  induction t generalizing n with
  | operand a => rfl
  | operation left op right _ ihr => rw [replaceOperands, rightSpine, rightSpine, ihr]

/-- Whether a grouping is settled does not depend on its operands. -/
theorem settled_replaceOperands {combines : β → β → Bool} (n : ℕ) (t : Grouping α β) :
    (t.replaceOperands f n).Settled combines ↔ t.Settled combines := by
  induction t generalizing n with
  | operand a => exact Iff.rfl
  | operation left op right ihl ihr =>
    rw [replaceOperands, Settled, Settled, ihl, ihr, leftSpine_replaceOperands,
      rightSpine_replaceOperands]

theorem operators_replaceOperands (n : ℕ) (t : Grouping α β) :
    (t.replaceOperands f n).operators = t.operators := by
  induction t generalizing n with
  | operand a => rfl
  | operation left op right ihl ihr => rw [replaceOperands, operators, operators, ihl, ihr]

/-- The other operands are all there are. -/
theorem mem_operands_replaceOperands {n : ℕ} {t : Grouping α β} {c : γ}
    (h : c ∈ (t.replaceOperands f n).operands) : ∃ k, c = f k := by
  induction t generalizing n with
  | operand a => exact ⟨n, List.mem_singleton.mp h⟩
  | operation left op right ihl ihr =>
    rw [replaceOperands, operands, List.mem_append] at h
    exact h.elim ihl ihr

end Operands

end OperatorFold.Grouping
