import OperatorFold.Reporting

/-! # Runs that report and go on

Most computations of the library report some errors and end with a value, whoever started them.
`Yields` says so: the computation behaves as one that reports a given list of errors, one after
another, and then ends with a given value. `Faults` says that a fault ends it instead. The limit on
errors and the journal stay open in both, so they speak of every way to call a computation at once,
and they compose along `bind`. What is logged is left out.

A computation that does one or the other comes to an end of its own (`Ends`). `value` and `errors`
are what a run without a limit comes to; `Yields` determines both.
-/

namespace OperatorFold

/-- A computation of several steps has a result if its first step has one and the others go on from
there. -/
theorem exists_of_bind_eq_ok {ε α β : Type} {x : Except ε α} {f : α → Except ε β}
    {b : β} (h : x >>= f = .ok b) : ∃ a, x = .ok a ∧ f a = .ok b := by
  cases x with
  | error e => cases h
  | ok a => exact ⟨a, rfl, h⟩

/-- What a function makes of a result, it makes of one that is there. -/
theorem exists_of_map_eq_ok {ε α β : Type} {f : α → β} {x : Except ε α} {b : β}
    (h : x.map f = .ok b) : ∃ a, x = .ok a ∧ f a = b := by
  cases x with
  | error e => cases h
  | ok a =>
    injection h with h
    exact ⟨a, rfl, h⟩

/-- Other errors leave a result as it is. -/
theorem eq_ok_of_mapError {ε ε' α : Type} {f : ε → ε'} {x : Except ε α} {a : α}
    (h : x.mapError f = .ok a) : x = .ok a := by
  cases x with
  | error e => cases h
  | ok _ =>
    injection h with h
    rw [h]

/-! ## Limits -/

namespace Limit

/-- So many errors do not reach a limit. -/
def Allows (limit : Limit) (count : Nat) : Prop := ∀ k ∈ limit, count < k

theorem allows_none (count : Nat) : Allows none count := by
  intro k hk
  cases hk

theorem allows_some {k count : Nat} : Allows (some k) count ↔ count < k := by
  constructor
  · intro h
    exact h k rfl
  · intro h k' hk'
    cases hk'
    exact h

/-- Fewer errors do not reach a limit that more do not reach. -/
theorem Allows.mono {limit : Limit} {few many : Nat} (h : limit.Allows many) (hle : few ≤ many) :
    limit.Allows few :=
  fun k hk => Nat.lt_of_le_of_lt hle (h k hk)

end Limit

namespace Reporting

variable {α β : Type} {x : Reporting α} {f : α → Reporting β} {a : α} {b : β}
  {es es' : List PrecedenceError}

/-! ## The monad laws -/

/-- Two computations run one after the other, the second one with the limit and the journal that the
first one leaves. -/
theorem bind_apply (x : Reporting α) (f : α → Reporting β) (limit : Limit) (j : Journal) :
    (x >>= f) limit j = match x limit j with
      | (.ok a, j) => f a limit j
      | (.error h, j) => (.error h, j) := rfl

/-- Behind a computation with a result the next one goes on. -/
theorem bind_apply_ok {limit : Limit} {j j' : Journal} (h : x limit j = (.ok a, j')) :
    (x >>= f) limit j = f a limit j' := by
  rw [bind_apply, h]

/-- Behind a computation that has halted nothing happens. -/
theorem bind_apply_error {limit : Limit} {j j' : Journal} {halt : Halt}
    (h : x limit j = (.error halt, j')) : (x >>= f) limit j = (.error halt, j') := by
  rw [bind_apply, h]

instance : LawfulMonad Reporting :=
  LawfulMonad.mk' Reporting
    (fun x => by
      funext limit j
      show (match x limit j with
        | (.ok a, j) => (.ok a, j)
        | (.error h, j) => (.error h, j)) = x limit j
      rcases x limit j with ⟨_ | _, _⟩ <;> rfl)
    (fun _ _ => rfl)
    (fun x f g => by
      funext limit j
      simp only [bind_apply]
      rcases x limit j with ⟨_ | _, _⟩ <;> rfl)

/-! ## Reports in a row -/

/-- Errors are reported in two parts as they are in one. -/
theorem reportAll_append (es es' : List PrecedenceError) :
    reportAll (es ++ es') = (do reportAll es; reportAll es') := by
  induction es with
  | nil => rfl
  | cons e rest ih =>
    rw [List.cons_append, reportAll, ih, reportAll, bind_assoc]

/-- A report is let pass if it does not reach the limit. -/
theorem report_apply {limit : Limit} {j : Journal} (e : PrecedenceError)
    (h : limit.Allows (j.errors.length + 1)) :
    report e limit j = (.ok (), { j with errors := j.errors ++ [e] }) := by
  have hpass : limit.any (· ≤ (j.errors ++ [e]).length) = false := by
    cases limit with
    | none => rfl
    | some k =>
      have hlt := h k rfl
      rw [List.length_append, List.length_singleton]
      exact decide_eq_false (by omega)
  rw [report, hpass]
  rfl

/-- The report that reaches the limit ends the run. -/
theorem report_apply_halt {k : Nat} {j : Journal} (e : PrecedenceError)
    (h : k ≤ j.errors.length + 1) :
    report e (some k) j = (.error (.rejected e), { j with errors := j.errors ++ [e] }) := by
  have hhalt : (some k).any (· ≤ (j.errors ++ [e]).length) = true := by
    rw [List.length_append, List.length_singleton]
    exact decide_eq_true h
  rw [report, hhalt]
  rfl

/-- Reports are let pass for as long as they do not reach the limit. -/
theorem reportAll_apply {limit : Limit} {j : Journal}
    (h : limit.Allows (j.errors.length + es.length)) :
    reportAll es limit j = (.ok (), { j with errors := j.errors ++ es }) := by
  induction es generalizing j with
  | nil => rw [List.append_nil]; rfl
  | cons e rest ih =>
    rw [List.length_cons] at h
    have hfirst : limit.Allows (j.errors.length + 1) := h.mono (by omega)
    have hrest : limit.Allows ((j.errors ++ [e]).length + rest.length) := by
      rw [List.length_append, List.length_singleton]
      exact h.mono (by omega)
    rw [reportAll, bind_apply_ok (report_apply e hfirst), ih hrest]
    simp only [List.append_assoc, List.singleton_append]

/-- Without a limit every report is let pass. -/
theorem reportAll_apply_none (es : List PrecedenceError) (j : Journal) :
    reportAll es none j = (.ok (), { j with errors := j.errors ++ es }) :=
  reportAll_apply (Limit.allows_none _)

/-- Only a report can end reports in a row. -/
theorem rejected_of_reportAll {limit : Limit} {j j' : Journal} {halt : Halt}
    (h : reportAll es limit j = (.error halt, j')) : ∃ e ∈ es, halt = .rejected e := by
  induction es generalizing j with
  | nil => cases h
  | cons e rest ih =>
    rcases hrun : report e limit j with ⟨halt' | u, j₁⟩
    · rw [reportAll, bind_apply_error hrun] at h
      rw [report] at hrun
      split at hrun
      · cases hrun
        cases h
        exact ⟨e, List.mem_cons_self, rfl⟩
      · cases hrun
    · rw [reportAll, bind_apply_ok hrun] at h
      obtain ⟨e', he', hhalt⟩ := ih h
      exact ⟨e', List.mem_cons_of_mem _ he', hhalt⟩

/-! ## What a computation yields -/

/-- Two computations come to the same result and the same errors, under every limit and from all
journals with the same errors. They may log different events. -/
def Agrees (x y : Reporting α) : Prop :=
  ∀ (limit : Limit) (j j' : Journal), j.errors = j'.errors →
    (x limit j).1 = (y limit j').1 ∧ (x limit j).2.errors = (y limit j').2.errors

/-- Computations that agree have the same result and report the same errors, from any two journals
with the same errors. -/
theorem Agrees.exists_apply {y : Reporting α} (h : Agrees x y) {limit : Limit} {j j' j₂ : Journal}
    {result : Except Halt α} (hj : j.errors = j'.errors) (hy : y limit j' = (result, j₂)) :
    ∃ j₁, x limit j = (result, j₁) ∧ j₁.errors = j₂.errors := by
  obtain ⟨hres, herr⟩ := h limit j j' hj
  rw [hy] at hres herr
  exact ⟨(x limit j).2, Prod.ext hres rfl, herr⟩

/-- A computation reports exactly the errors `es`, in this order, and ends with `a`; under a limit
it ends as early as these reports do. -/
def Yields (x : Reporting α) (a : α) (es : List PrecedenceError) : Prop :=
  Agrees x (do reportAll es; pure a)

theorem yields_pure (a : α) : Yields (pure a) a [] :=
  fun _ _ _ hj => ⟨rfl, hj⟩

/-- What an error does depends on the errors in the journal alone. -/
theorem agrees_report (e : PrecedenceError) : Agrees (report e) (report e) := by
  intro limit j j' hj
  simp only [report, hj]
  split
  · exact ⟨rfl, rfl⟩
  · exact ⟨rfl, rfl⟩

theorem yields_report (e : PrecedenceError) : Yields (report e) () [e] := by
  have hsame : (do reportAll [e]; pure ()) = report e :=
    (bind_pure (reportAll [e])).trans (bind_pure (report e))
  rw [Yields, hsame]
  exact agrees_report e

/-- A computation that yields goes on with its value, behind the errors that it has reported. -/
theorem Yields.bind_agrees {y : Reporting β} (hx : Yields x a es) (hf : Agrees (f a) y) :
    Agrees (x >>= f) (do reportAll es; y) := by
  intro limit j j' hj
  rcases hrow : reportAll es limit j' with ⟨halted | u, j₂⟩
  · obtain ⟨j₁, hrun, herr⟩ := hx.exists_apply hj (bind_apply_error hrow)
    rw [bind_apply_error hrun, bind_apply_error hrow]
    exact ⟨rfl, herr⟩
  · obtain ⟨j₁, hrun, herr⟩ := hx.exists_apply hj (bind_apply_ok hrow)
    rw [bind_apply_ok hrun, bind_apply_ok hrow]
    exact hf limit j₁ j₂ herr

/-- The errors of a computation and of what it goes on with stand in a row. -/
theorem Yields.bind (hx : Yields x a es) (hf : Yields (f a) b es') :
    Yields (x >>= f) b (es ++ es') := by
  rw [Yields, reportAll_append, bind_assoc]
  exact hx.bind_agrees hf

/-- Errors reported one after another are all that is reported. -/
theorem yields_reportAll (es : List PrecedenceError) : Yields (reportAll es) () es := by
  induction es with
  | nil => exact yields_pure ()
  | cons e rest ih => exact (yields_report e).bind ih

/-- Events do not count among what a computation yields. -/
theorem yields_log (event : LogEvent) : Yields (log event) () [] :=
  fun _ _ _ hj => ⟨rfl, hj⟩

/-- Nor does it matter how many errors a computation has counted, if it only logs their number. -/
theorem agrees_errorCount_bind {f : Nat → Reporting α} {y : Reporting α}
    (h : ∀ count, Agrees (f count) y) : Agrees (errorCount >>= f) y :=
  fun limit j j' hj => h j.errors.length limit j j' hj

/-- What comes behind a count of the errors may be told if it does not depend on the count. -/
theorem yields_errorCount_bind {f : Nat → Reporting α} (h : ∀ count, Yields (f count) a es) :
    Yields (errorCount >>= f) a es :=
  agrees_errorCount_bind h

/-- A result of a computation that may fail is handed on, and nothing is reported. -/
theorem yields_ofExcept {x : Except Fault α} (h : x = .ok a) : Yields (ofExcept x) a [] := by
  rw [h]
  exact yields_pure a

/-- Whatever the limit, only one of its errors can end a computation early. -/
theorem Yields.rejected_of_apply {limit : Limit} {j : Journal} {halt : Halt} (h : Yields x a es)
    (hrun : (x limit j).1 = .error halt) : ∃ e ∈ es, halt = .rejected e := by
  rw [(h limit j j rfl).1] at hrun
  rcases hrow : reportAll es limit j with ⟨halt' | u, j'⟩
  · rw [bind_apply_error hrow] at hrun
    cases hrun
    exact rejected_of_reportAll hrow
  · rw [bind_apply_ok hrow] at hrun
    cases hrun

/-! ## Faults -/

/-- A computation reports exactly the errors `es`, and then a fault ends it. -/
def Faults (x : Reporting α) (fault : Fault) (es : List PrecedenceError) : Prop :=
  Agrees x (do reportAll es; halt (.fault fault))

theorem faults_halt (fault : Fault) : Faults (halt (.fault fault) : Reporting α) fault [] :=
  fun _ _ _ hj => ⟨rfl, hj⟩

/-- A computation that yields may go on to a fault. -/
theorem Yields.bind_faults {fault : Fault} (hx : Yields x a es) (hf : Faults (f a) fault es') :
    Faults (x >>= f) fault (es ++ es') := by
  rw [Faults, reportAll_append, bind_assoc]
  exact hx.bind_agrees hf

/-- Nothing goes on after a fault. -/
theorem Faults.bind {fault : Fault} (h : Faults x fault es) (f : α → Reporting β) :
    Faults (x >>= f) fault es := by
  intro limit j j' hj
  rcases hrow : reportAll es limit j' with ⟨halted | u, j₂⟩
  · obtain ⟨j₁, hrun, herr⟩ := h.exists_apply hj (bind_apply_error hrow)
    rw [bind_apply_error hrun, bind_apply_error hrow]
    exact ⟨rfl, herr⟩
  · obtain ⟨j₁, hrun, herr⟩ := h.exists_apply hj (bind_apply_ok hrow)
    rw [bind_apply_error hrun, bind_apply_ok hrow]
    exact ⟨rfl, herr⟩

/-- A computation comes to an end of its own: it yields a value of which `P` holds, or a fault. -/
def Ends (x : Reporting α) (P : α → Prop) : Prop :=
  (∃ a es, Yields x a es ∧ P a) ∨ ∃ fault es, Faults x fault es

theorem Yields.ends {P : α → Prop} (h : Yields x a es) (ha : P a) : Ends x P :=
  .inl ⟨a, es, h, ha⟩

theorem Faults.ends {P : α → Prop} {fault : Fault} (h : Faults x fault es) : Ends x P :=
  .inr ⟨fault, es, h⟩

/-! ## The outcome of a run without a limit -/

/-- Where the errors do not reach the limit, a computation ends with its value. -/
theorem Yields.apply {limit : Limit} {j : Journal} (h : Yields x a es)
    (hlimit : limit.Allows (j.errors.length + es.length)) :
    ∃ j', x limit j = (.ok a, j') ∧ j'.errors = j.errors ++ es :=
  h.exists_apply rfl (bind_apply_ok (reportAll_apply hlimit))

/-- What a run without a limit comes to is collected. -/
theorem collect_of_apply {j : Journal} (h : x none {} = (.ok a, j)) :
    x.collect = .ok ⟨a, j.errors⟩ := by
  rw [collect, run, h]

/-- A run without a limit collects the errors that a computation yields. -/
theorem Yields.collect (h : Yields x a es) : x.collect = .ok ⟨a, es⟩ := by
  obtain ⟨j, hrun, herr⟩ := h.apply (Limit.allows_none _)
  rw [collect_of_apply hrun, herr]
  rfl

/-- A fault prevents a result also when errors are collected. -/
theorem Faults.collect {fault : Fault} (h : Faults x fault es) :
    x.collect = .error (.fault fault) := by
  obtain ⟨j, hrun, -⟩ := h.exists_apply rfl (bind_apply_ok (reportAll_apply_none es {}))
  simp only [Reporting.collect, run, hrun]

/-- No computation both ends with a value and with a fault. -/
theorem Yields.not_faults {fault : Fault} (h : Yields x a es) : ¬Faults x fault es' := by
  intro hfaults
  have hcollect := h.collect.symm.trans hfaults.collect
  cases hcollect

/-- What holds of the end of a computation holds of its value. -/
theorem Ends.of_yields {P : α → Prop} (h : Ends x P) (hx : Yields x a es) : P a := by
  rcases h with ⟨b, es', hyields, hb⟩ | ⟨fault, es', hfaults⟩
  · have hcollect := hyields.collect.symm.trans hx.collect
    cases hcollect
    exact hb
  · exact absurd hfaults hx.not_faults

/-- The value of a run without a limit. -/
def value [Inhabited α] (x : Reporting α) : α :=
  match x.collect with
  | .ok outcome => outcome.value
  | .error _ => default

/-- The errors of a run without a limit. -/
def errors (x : Reporting α) : List PrecedenceError :=
  match x.collect with
  | .ok outcome => outcome.errors
  | .error _ => []

theorem value_of_collect [Inhabited α] {outcome : Outcome α} (h : x.collect = .ok outcome) :
    x.value = outcome.value := by
  rw [value, h]

theorem errors_of_collect {outcome : Outcome α} (h : x.collect = .ok outcome) :
    x.errors = outcome.errors := by
  rw [errors, h]

theorem Yields.value_eq [Inhabited α] (h : Yields x a es) : x.value = a :=
  value_of_collect h.collect

theorem Yields.errors_eq (h : Yields x a es) : x.errors = es :=
  errors_of_collect h.collect

/-- A computation that yields anything yields its value and its errors. -/
theorem Yields.outcome [Inhabited α] (h : Yields x a es) : Yields x x.value x.errors := by
  rw [h.value_eq, h.errors_eq]
  exact h

/-! ## Results up to a fault -/

/-- A computation yields `a` and the errors `es`, unless a fault ends it before; then it has
reported a beginning of them. -/
def YieldsOrFaults (x : Reporting α) (a : α) (es : List PrecedenceError) : Prop :=
  Yields x a es ∨ ∃ fault es', es' <+: es ∧ Faults x fault es'

theorem Yields.orFaults (h : Yields x a es) : YieldsOrFaults x a es := .inl h

theorem Faults.orFaults {fault : Fault} (h : Faults x fault []) (a : α)
    (es : List PrecedenceError) : YieldsOrFaults x a es :=
  .inr ⟨fault, [], List.nil_prefix, h⟩

/-- Two computations in a row end with a value, or one of them meets a fault. -/
theorem YieldsOrFaults.bind (hx : YieldsOrFaults x a es) (hf : YieldsOrFaults (f a) b es') :
    YieldsOrFaults (x >>= f) b (es ++ es') := by
  rcases hx with hyields | ⟨fault, es₁, hes₁, hfaults⟩
  · rcases hf with hmore | ⟨fault, es₂, hes₂, hmore⟩
    · exact .inl (hyields.bind hmore)
    · exact .inr ⟨fault, es ++ es₂, (List.prefix_append_right_inj es).mpr hes₂,
        hyields.bind_faults hmore⟩
  · exact .inr ⟨fault, es₁, hes₁.trans (List.prefix_append es es'), hfaults.bind f⟩

/-- A fault of the second computation is one of the two in a row, whatever becomes of the first. -/
theorem YieldsOrFaults.bind_faults (hx : YieldsOrFaults x a es)
    (hf : ∃ fault es', Faults (f a) fault es') : ∃ fault es', Faults (x >>= f) fault es' := by
  rcases hx with hyields | ⟨fault, es₁, -, hfaults⟩
  · obtain ⟨fault, es', hmore⟩ := hf
    exact ⟨fault, _, hyields.bind_faults hmore⟩
  · exact ⟨fault, es₁, hfaults.bind f⟩

theorem YieldsOrFaults.ends {P : α → Prop} (h : YieldsOrFaults x a es) (ha : P a) : Ends x P := by
  rcases h with hyields | ⟨fault, es₁, -, hfaults⟩
  · exact hyields.ends ha
  · exact hfaults.ends

/-- Reports in a row add a beginning of themselves to the journal, however early they end. -/
theorem exists_reportAll_errors (es : List PrecedenceError) (limit : Limit) (j : Journal) :
    ∃ es', es' <+: es ∧ (reportAll es limit j).2.errors = j.errors ++ es' := by
  induction es generalizing j with
  | nil => exact ⟨[], List.prefix_refl _, (List.append_nil _).symm⟩
  | cons e rest ih =>
    -- the error is recorded whether or not the run ends there
    have hreport : (report e limit j).2.errors = j.errors ++ [e] := by
      rw [report]
      split <;> rfl
    rcases hrun : report e limit j with ⟨halt | u, j'⟩
    · rw [hrun] at hreport
      refine ⟨[e], ⟨rest, rfl⟩, ?_⟩
      rw [reportAll, bind_apply_error hrun]
      exact hreport
    · rw [hrun] at hreport
      obtain ⟨es', hes', herrors⟩ := ih j'
      refine ⟨e :: es', List.cons_prefix_cons.mpr ⟨rfl, hes'⟩, ?_⟩
      rw [reportAll, bind_apply_ok hrun, herrors, hreport, List.append_assoc, List.singleton_append]

/-- Under every limit a run adds a beginning of the errors to the journal. -/
theorem YieldsOrFaults.exists_errors (h : YieldsOrFaults x a es) (limit : Limit) (j : Journal) :
    ∃ es', es' <+: es ∧ (x limit j).2.errors = j.errors ++ es' := by
  have hthen {y : Reporting α} (hy : ∀ j, (y limit j).2 = j) (es : List PrecedenceError) :
      ((do reportAll es; y) limit j).2.errors = (reportAll es limit j).2.errors := by
    rw [bind_apply]
    rcases reportAll es limit j with ⟨_ | _, j'⟩
    · rfl
    · exact congrArg Journal.errors (hy j')
  rcases h with hyields | ⟨fault, es₁, hes₁, hfaults⟩
  · obtain ⟨es', hes', herrors⟩ := exists_reportAll_errors es limit j
    exact ⟨es', hes', ((hyields limit j j rfl).2.trans (hthen (fun _ => rfl) es)).trans herrors⟩
  · obtain ⟨es', hes', herrors⟩ := exists_reportAll_errors es₁ limit j
    exact ⟨es', hes'.trans hes₁,
      ((hfaults limit j j rfl).2.trans (hthen (fun _ => rfl) es₁)).trans herrors⟩

/-- A run without a limit that has an outcome has come to its value. -/
theorem YieldsOrFaults.outcome_eq (h : YieldsOrFaults x a es) {outcome : Outcome α}
    (houtcome : x.collect = .ok outcome) : outcome = ⟨a, es⟩ := by
  rcases h with hyields | ⟨fault, es₁, -, hfaults⟩
  · exact Except.ok.inj (houtcome.symm.trans hyields.collect)
  · have hcollect := houtcome.symm.trans hfaults.collect
    cases hcollect

/-! ## Runs below the limit -/

/-- Where its errors do not reach the limit, a computation reports `es` and ends with `a`. What it
does otherwise is left open, so a computation that hands an early end to its caller may complete,
too. -/
def Completes (x : Reporting α) (a : α) (es : List PrecedenceError) : Prop :=
  ∀ (limit : Limit) (j : Journal), limit.Allows (j.errors.length + es.length) →
    ∃ j', x limit j = (.ok a, j') ∧ j'.errors = j.errors ++ es

/-- A computation that reports some errors is completed if they do not reach the limit. -/
theorem Yields.completes (h : Yields x a es) : Completes x a es := fun _ _ hlimit => h.apply hlimit

theorem completes_pure (a : α) : Completes (pure a) a [] := (yields_pure a).completes

theorem completes_log (event : LogEvent) : Completes (log event) () [] :=
  (yields_log event).completes

/-- Two computations in a row are completed if their errors together do not reach the limit. -/
theorem Completes.bind (hx : Completes x a es) (hf : Completes (f a) b es') :
    Completes (x >>= f) b (es ++ es') := by
  intro limit j hlimit
  rw [List.length_append, ← Nat.add_assoc] at hlimit
  obtain ⟨j₁, hrun, hj₁⟩ := hx limit j (hlimit.mono (Nat.le_add_right _ _))
  obtain ⟨j₂, hmore, hj₂⟩ := hf limit j₁ (by rwa [hj₁, List.length_append])
  exact ⟨j₂, (bind_apply_ok hrun).trans hmore, by rw [hj₂, hj₁, List.append_assoc]⟩

/-- A computation that is completed is so under an attempt, too, which hands on its value. -/
theorem Completes.attempt (h : Completes x a es) : Completes x.attempt (.ok a) es := by
  intro limit j hlimit
  obtain ⟨j', hrun, hj'⟩ := h limit j hlimit
  exact ⟨j', by rw [Reporting.attempt, hrun], hj'⟩

/-- On its way the computation `x` comes to `y`: where a limit allows the errors `es`, it reports
them and goes on as `y` does. -/
def ComesTo (x y : Reporting α) (es : List PrecedenceError) : Prop :=
  ∀ (limit : Limit) (j : Journal), limit.Allows (j.errors.length + es.length) →
    ∃ j', j'.errors = j.errors ++ es ∧ x limit j = y limit j'

theorem ComesTo.refl (x : Reporting α) : ComesTo x x [] :=
  fun _ j _ => ⟨j, (List.append_nil j.errors).symm, rfl⟩

/-- Two stages of a computation make one, with the errors of both. -/
theorem ComesTo.trans {y z : Reporting α} (hxy : ComesTo x y es) (hyz : ComesTo y z es') :
    ComesTo x z (es ++ es') := by
  intro limit j hlimit
  rw [List.length_append, ← Nat.add_assoc] at hlimit
  obtain ⟨j₁, hj₁, hx⟩ := hxy limit j (hlimit.mono (Nat.le_add_right _ _))
  obtain ⟨j₂, hj₂, hy⟩ := hyz limit j₁ (by rwa [hj₁, List.length_append])
  exact ⟨j₂, by rw [hj₂, hj₁, List.append_assoc], hx.trans hy⟩

/-- A computation that yields its first value comes to what it does with the value. -/
theorem Yields.comesTo (h : Yields x a es) (f : α → Reporting β) : ComesTo (x >>= f) (f a) es := by
  intro limit j hlimit
  obtain ⟨j', hrun, hj'⟩ := h.apply hlimit
  exact ⟨j', hj', bind_apply_ok hrun⟩

/-! ## The outcome of a run up to the first error -/

/-- A run up to the first error ends with it. -/
theorem Yields.apply_rejected {e : PrecedenceError} {j : Journal} (h : Yields x a (e :: es))
    (hj : j.errors = []) : ∃ j', x (some 1) j = (.error (.rejected e), j') ∧ j'.errors = [e] := by
  have hhalt : reportAll (e :: es) (some 1) j =
      (.error (.rejected e), { j with errors := j.errors ++ [e] }) :=
    bind_apply_error (report_apply_halt e (Nat.le_add_left 1 _))
  obtain ⟨j', hrun, hj'⟩ := h.exists_apply rfl (bind_apply_error hhalt)
  refine ⟨j', hrun, ?_⟩
  rw [hj', hj]
  rfl

/-- A run up to the first error does what the outcome of a run to the end is unwrapped to. -/
theorem Yields.failFast (h : Yields x a es) :
    x.failFast = (Outcome.mk a es).unwrap.mapError .rejected := by
  obtain ⟨hres, -⟩ := h (some 1) {} {} rfl
  show (x (some 1) {}).1 = _
  rw [hres]
  cases es with
  | nil => rfl
  | cons e rest => rfl

end Reporting

end OperatorFold
