import OperatorFold.Proofs.CommandLine.Arguments
import OperatorFold.Proofs.CommandLine.Meaning

/-! # Runs up to the first error

A run that ends at the first precedence error is the run to the end, broken off there: what it does
up to this error it does as the other run, and behind the error it does nothing. The error may come
up in the middle of an input, from one of its declarations or from one of its statements. `HaltsAt`
says of each part of a run that it ends so, and that its results are the first ones of a list. It
goes along the parts of a run as `Completes` does, and the two of them meet in `process_haltsAt`.
-/

namespace OperatorFold.CommandLine

open Reporting Registry

/-- Up to the first error, a run ends with the error `e`, and its results are the first ones of
`results`. -/
def HaltsAt (x : Reporting Progress) (e : PrecedenceError) (results : List Result) : Prop :=
  ∀ j : Journal, j.errors = [] → ∃ p j', x (some 1) j = (.ok p, j') ∧ j'.errors = [e] ∧
    p.ending = some (.halted (.rejected e)) ∧ p.results <+: results

variable {p : Progress} {history : List Declaration} {file : String} {e : PrecedenceError}
  {es : List PrecedenceError} {results : List Result}

/-- A run halts behind a part that reports nothing. -/
theorem HaltsAt.behind {α : Type} {x : Reporting α} {f : α → Reporting Progress} {a : α}
    (hx : Completes x a []) (hf : HaltsAt (f a) e results) : HaltsAt (x >>= f) e results := by
  intro j hj
  have hbelow : Limit.Allows (some 1) (j.errors.length + ([] : List PrecedenceError).length) := by
    rw [hj]
    exact Limit.allows_some.mpr Nat.one_pos
  obtain ⟨j₁, hrun, hj₁⟩ := hx (some 1) j hbelow
  rw [List.append_nil] at hj₁
  obtain ⟨p, j', hend, hrest⟩ := hf j₁ (hj₁.trans hj)
  exact ⟨p, j', (bind_apply_ok hrun).trans hend, hrest⟩

/-- A run that has halted stays as it is, where nothing goes on behind an ending. -/
theorem HaltsAt.bind {x : Reporting Progress} {f : Progress → Reporting Progress}
    (h : HaltsAt x e results) (hf : ∀ p : Progress, p.ending.isSome → f p = pure p)
    (more : List Result) : HaltsAt (x >>= f) e (results ++ more) := by
  intro j hj
  obtain ⟨p, j', hrun, hj', hending, hresults⟩ := h j hj
  refine ⟨p, j', ?_, hj', hending, hresults.trans (List.prefix_append _ _)⟩
  rw [bind_apply_ok hrun, hf p (by rw [hending]; rfl)]
  rfl

/-! ## Statements -/

/-- The fold of a statement is broken off at its first error, and no statement behind it is
folded. -/
theorem foldStatements_haltsAt (parenthesize : Bool) {statements : List Node}
    (hp : p.registry = holding history)
    (h : ∀ n ∈ statements, Job.FromSource ⟨history, file, n⟩)
    (herrors : (statements.map (Job.mk history file)).flatMap (·.fold.errors) = e :: es) :
    ∃ results,
      List.Forall₂ (Job.Gives · parenthesize ·) (statements.map (Job.mk history file)) results ∧
      HaltsAt (p.foldStatements parenthesize file statements) e (p.results ++ results) := by
  -- on the statements: the first of them has the first error, or it has none and the others do
  induction statements generalizing p with
  | nil => cases herrors
  | cons n rest ih =>
    rw [List.forall_mem_cons] at h
    rw [List.map_cons, List.flatMap_cons] at herrors
    obtain ⟨folded, result, hfold, hresult, hgives⟩ := h.1.exists_gives parenthesize
    obtain ⟨registry, before, ending⟩ := p
    cases hp
    cases hnone : (Job.mk history file n).fold.errors with
    | nil =>
      rw [hnone] at hfold herrors
      obtain ⟨results, hall, hrest⟩ := @ih ⟨holding history, before ++ [result], ending⟩ rfl h.2
        herrors
      refine ⟨result :: results, .cons hgives hall, ?_⟩
      rw [List.append_cons, Progress.foldStatements]
      refine .behind hfold.completes.attempt ?_
      simp only [hresult]
      exact hrest
    | cons first others =>
      rw [hnone] at hfold herrors
      injection herrors with hfirst _
      -- the run to the end goes on behind this statement, and its results only have to begin alike
      obtain ⟨results, hall, -⟩ := @foldStatements_completes
        ⟨holding history, before, ending⟩ _ _ parenthesize rest rfl h.2
      refine ⟨result :: results, .cons hgives hall, fun j hj => ?_⟩
      obtain ⟨j', hrun, hj'⟩ := hfold.apply_rejected hj
      have hattempt : (Job.mk history file n).fold.attempt (some 1) j =
          (.ok (.error (.rejected first)), j') := by
        rw [attempt, hrun]
      rw [← hfirst, Progress.foldStatements]
      exact ⟨_, j', bind_apply_ok hattempt, hj', rfl, List.prefix_append _ _⟩

/-! ## Inputs -/

variable {i : Input} {source : Source.SourceFile}

/-- An input is broken off in its declarations or in its statements, whichever report an error
first. -/
theorem takeInput_haltsAt (parenthesize : Bool) (hp : p.registry = holding history)
    (hsource : i.source? = some source) (herrors : i.errors history = e :: es) :
    ∃ results, List.Forall₂ (Job.Gives · parenthesize ·) (i.jobs history) results ∧
      HaltsAt (p.takeInput parenthesize i) e (p.results ++ results) := by
  obtain ⟨text, htext, hparse⟩ := i.parseSource_of_source? hsource
  rw [Progress.takeInput, htext]
  simp only [Progress.takeText, hparse]
  have hloads := loadErrors_holding history source.items
  rw [Input.errors, Input.declarations_eq hsource, ← hloads, ← hp] at herrors
  -- the declarations come first, and no statement is folded if they have an error
  cases hnone : p.registry.loadErrors source.items with
  | nil =>
    have hload := load_holding_completes history source.items
    rw [← hloads, ← hp, hnone, ← Input.declarations_eq hsource] at hload
    rw [hnone] at herrors
    obtain ⟨results, hgives, hfold⟩ := @foldStatements_haltsAt
      ⟨holding (history ++ i.declarations), p.results, none⟩ _ i.file _ _ parenthesize i.statements
      rfl (fun n hn => Input.fromSource_of_mem_statements hsource hn) herrors
    refine ⟨results, hgives, .behind (completes_log _) (.behind hload ?_)⟩
    rw [← ite_foldStatements hsource] at hfold
    exact hfold
  | cons first others =>
    rw [hnone] at herrors
    injection herrors with hfirst _
    obtain ⟨results, hgives, -⟩ := takeInput_completes parenthesize hp hsource
    refine ⟨results, hgives, .behind (completes_log _) fun j hj => ?_⟩
    obtain ⟨loaded, j', hrun, hended, hj'⟩ := load_apply_rejected hnone hj
    rw [hfirst] at hended hj'
    rw [bind_apply_ok hrun, hended]
    exact ⟨_, j', rfl, hj', rfl, List.prefix_append _ _⟩

/-- A run over inputs is broken off at the first error of all of them. -/
theorem takeInputs_haltsAt (parenthesize : Bool) {read : List Input}
    (hread : ∀ i ∈ read, i.parses) (hp : p.registry = holding history) (hend : p.ending = none)
    (herrors : errorsOf history read = e :: es) :
    ∃ results, List.Forall₂ (Job.Gives · parenthesize ·) (jobsOf history read) results ∧
      ∀ rest, HaltsAt (p.takeInputs parenthesize (read ++ rest)) e (p.results ++ results) := by
  -- on the inputs that were taken, one of which has the first error
  induction read generalizing p history with
  | nil => cases herrors
  | cons i read ih =>
    rw [List.forall_mem_cons] at hread
    obtain ⟨hparses, hothers⟩ := hread
    obtain ⟨source, hsource⟩ := Option.isSome_iff_exists.mp hparses
    rw [errorsOf, along_cons] at herrors
    rw [jobsOf, along_cons]
    cases hnone : i.errors history with
    | nil =>
      rw [hnone] at herrors
      obtain ⟨first, hfirst, hinput⟩ := takeInput_completes parenthesize hp hsource
      rw [hnone] at hinput
      obtain ⟨others, hgives, hmore⟩ :=
        @ih ⟨holding (history ++ i.declarations), p.results ++ first, none⟩ _ hothers rfl rfl
          herrors
      refine ⟨first ++ others, List.rel_append hfirst hgives, fun rest => ?_⟩
      rw [← List.append_assoc]
      exact .behind hinput (hmore rest)
    | cons _ _ =>
      rw [hnone] at herrors
      injection herrors with he _
      rw [he] at hnone
      obtain ⟨first, hfirst, hinput⟩ := takeInput_haltsAt parenthesize hp hsource hnone
      -- what the other inputs bring in the run to the end comes behind the results so far
      obtain ⟨others, hgives, -⟩ :=
        @takeInputs_append ⟨holding (history ++ i.declarations), [], none⟩ _ parenthesize _ hothers
          rfl rfl
      refine ⟨first ++ others, List.rel_append hfirst hgives, fun rest => ?_⟩
      rw [← List.append_assoc]
      exact hinput.bind (fun p hp => if_pos hp) others

/-- A run over all inputs is broken off at its first error, and its results up to there are the
first ones of the run to the end. -/
theorem process_haltsAt {s : Settings} {preset : Preset} {inputs : List Input}
    (hgives : List.Forall₂ (Job.Gives · s.parenthesize ·)
      (jobsOf preset.declarations (taken inputs)) results)
    (herrors : errorsOf preset.declarations (taken inputs) = e :: es) :
    HaltsAt (s.process preset (.ok inputs)) e results := by
  have hread : ∀ i ∈ taken inputs, i.parses := fun i hi => List.mem_takeWhile_imp hi
  obtain ⟨others, hothers, hhalts⟩ := @takeInputs_haltsAt
    { registry := holding preset.declarations } _ _ _ s.parenthesize _ hread rfl rfl herrors
  have hsame : others = results :=
    List.right_unique_forall₂' (fun _ _ _ h h' => h.unique h') hothers hgives
  have hinputs : taken inputs ++ inputs.dropWhile (·.parses) = inputs :=
    List.takeWhile_append_dropWhile
  have hrun := hhalts (inputs.dropWhile (·.parses))
  rw [hinputs, hsame] at hrun
  exact .behind (registry_completes preset) hrun

/-! ## Reports -/

/-- A diagnostic is that of a file that cannot be read or of an input that is no source text. -/
def IsRefusal (d : Diagnostic) : Prop :=
  (∃ path e, d = fileDiagnostic path e) ∨ ∃ file e, d = parseDiagnostic file e

/-- What the report of a run up to the first error says, as against that of the same run to the end.
It has only the first diagnostic and the results up to there, which are all of them if the run to
the end has no precedence error. The exit code says what the first diagnostic is: one for a
precedence error, two for an input that could not be taken, and zero if there is none. -/
structure Report.Truncates (early full : Report) : Prop where
  diagnostics : early.diagnostics = full.diagnostics.take 1
  results : early.results <+: full.results
  results_eq : (∀ e : PrecedenceError, e.diagnostic ∉ full.diagnostics) →
    early.results = full.results
  exitCode_eq_zero : early.exitCode = 0 ↔ full.exitCode = 0
  exitCode_eq_one : early.exitCode = 1 ↔
    ∃ e : PrecedenceError, full.diagnostics.head? = some e.diagnostic
  exitCode_eq_two : early.exitCode = 2 ↔ ∃ d ∈ full.diagnostics.head?, IsRefusal d

/-- A run has come to its end, or to an input that is refused. -/
def Progress.Orderly (p : Progress) : Prop :=
  p.ending = none ∨ ∃ d, p.ending = some (.refused d) ∧ IsRefusal d

/-- The diagnostic of a precedence error does not refuse an input. -/
theorem not_isRefusal_diagnostic (e : PrecedenceError) : ¬IsRefusal e.diagnostic := by
  have hcode : e.code ≠ "io" ∧ e.code ≠ "parseError" := by
    cases e <;> rw [PrecedenceError.code] <;> decide
  rintro (⟨path, cause, h⟩ | ⟨file, cause, h⟩)
  · exact hcode.1 (Option.some.inj (congrArg Diagnostic.code h))
  · exact hcode.2 (Option.some.inj (congrArg Diagnostic.code h))

/-- A run with an error does not exit with zero. -/
theorem exitCodeOf_ne_zero (ending : Option Ending) (e : PrecedenceError)
    (es : List PrecedenceError) : exitCodeOf ending (e :: es) ≠ 0 := by
  match ending with
  | none | some (.halted _) | some .textless | some (.refused _) => exact Nat.succ_ne_zero _

section Truncates

variable {q : Progress} {j j' : Journal}

/-- The report of a run that has halted at the first error of the run to the end. -/
theorem ofRun_truncates_of_halted (hending : p.ending = some (.halted (.rejected e)))
    (hresults : p.results <+: q.results) (hj : j.errors = [e]) (hj' : j'.errors = e :: es) :
    (Report.ofRun (.ok p) j).Truncates (.ofRun (.ok q) j') := by
  have hfirst : (Report.ofRun (.ok q) j').diagnostics.head? = some e.diagnostic := by
    rw [Report.ofRun, hj']
    rfl
  have hexit : (Report.ofRun (.ok q) j').exitCode ≠ 0 := by
    rw [Report.ofRun, hj']
    exact exitCodeOf_ne_zero q.ending e es
  have hdiagnostics : (Report.ofRun (.ok p) j).diagnostics = [e.diagnostic] := by
    rw [Report.ofRun, hj, hending]
    rfl
  have hone : (Report.ofRun (.ok p) j).exitCode = 1 := by
    rw [Report.ofRun, hending]
    rfl
  refine ⟨?_, hresults, ?_, ?_, ?_, ?_⟩
  · rw [hdiagnostics, List.take_one, hfirst]
    rfl
  · -- the first diagnostic is a precedence error, so nothing has to hold of all results
    intro hnone
    exact absurd (List.mem_of_mem_head? hfirst) (hnone e)
  · rw [hone]
    exact iff_of_false Nat.one_ne_zero hexit
  · exact iff_of_true hone ⟨e, hfirst⟩
  · -- one exit code is known, and no diagnostic is both of an error and of a refusal
    rw [hone]
    refine iff_of_false (by decide) ?_
    rintro ⟨d, hd, hrefusal⟩
    rw [hfirst] at hd
    cases hd
    exact not_isRefusal_diagnostic e hrefusal

/-- The reports of a run without an error, up to the first one and to the end. -/
theorem ofRun_truncates_of_no_errors (horderly : p.Orderly) (hj : j.errors = [])
    (hj' : j'.errors = []) : (Report.ofRun (.ok p) j).Truncates (.ofRun (.ok p) j') := by
  rw [Report.ofRun, Report.ofRun, hj, hj']
  rcases horderly with hending | ⟨d, hending, hd⟩
  · rw [hending]
    refine ⟨rfl, List.prefix_refl _, fun _ => rfl, Iff.rfl, ?_, ?_⟩
    · refine iff_of_false Nat.zero_ne_one ?_
      rintro ⟨e, he⟩
      cases he
    · refine iff_of_false (show 0 ≠ 2 by decide) ?_
      rintro ⟨d, hd, -⟩
      cases hd
  · rw [hending]
    refine ⟨rfl, List.prefix_refl _, fun _ => rfl, Iff.rfl, ?_, iff_of_true rfl ⟨d, rfl, hd⟩⟩
    refine iff_of_false (show 2 ≠ 1 by decide) ?_
    rintro ⟨e, he⟩
    cases he
    exact not_isRefusal_diagnostic e hd

/-- A run in good order ends with a report. -/
theorem conclude_of_orderly (horderly : p.Orderly) :
    conclude (.ok p, j) = .ok (.ofRun (.ok p) j) := by
  obtain ⟨registry, results, ending⟩ := p
  rcases horderly with h | ⟨d, h, -⟩
  · cases h
    rfl
  · cases h
    rfl

/-- A run that needs an expression without a value has no report. -/
theorem conclude_of_textless (hending : p.ending = some .textless) :
    conclude (.ok p, j) = .error (.valueless .expression) := by
  obtain ⟨registry, results, ending⟩ := p
  cases hending
  rfl

/-- The reports of an orderly run to the end and of the same run broken off at its first error. -/
theorem conclude_truncates {x : Reporting Progress} (hx : Completes x p es)
    (hhalts : ∀ e rest, es = e :: rest → HaltsAt x e p.results) (horderly : p.Orderly) :
    ∃ full early, conclude (x.run none) = .ok full ∧ conclude (x.run (some 1)) = .ok early ∧
      early.Truncates full := by
  obtain ⟨j, hrun, hj⟩ := hx none {} (Limit.allows_none _)
  rw [Reporting.run, hrun, conclude_of_orderly horderly]
  -- without an error the limit is never reached, and both runs are the same
  cases es with
  | nil =>
    obtain ⟨j₁, hrun₁, hj₁⟩ := hx (some 1) {} (Limit.allows_some.mpr Nat.one_pos)
    rw [Reporting.run, hrun₁, conclude_of_orderly horderly]
    exact ⟨_, _, rfl, rfl, ofRun_truncates_of_no_errors horderly hj₁ hj⟩
  | cons e rest =>
    obtain ⟨⟨registry, results, ending⟩, j₁, hrun₁, hj₁, hhalted, hresults⟩ :=
      hhalts e rest rfl {} rfl
    cases hhalted
    rw [Reporting.run, hrun₁]
    exact ⟨_, _, rfl, rfl, ofRun_truncates_of_halted rfl hresults hj₁ hj⟩

end Truncates

/-! ## Runs -/

/-- The diagnostic of an input that is refused says so. -/
theorem Input.isRefusal_of_refusal? {i : Input} {d : Diagnostic} (h : i.refusal? = some d) :
    IsRefusal d := by
  obtain ⟨text, -, hd⟩ := Option.bind_eq_some_iff.mp h
  cases hparse : Source.parseSource text (some i.file) with
  | error e =>
    rw [hparse] at hd
    exact .inr ⟨i.file, e, (Option.some.inj hd).symm⟩
  | ok source =>
    rw [hparse] at hd
    cases hd

/-- A run over inputs is orderly, unless it needs an expression that has no value. -/
theorem endOf_orderly (history : List Declaration) (inputs : List Input) (results : List Result) :
    (endOf history inputs results).Orderly ∨
    ∃ i ∈ inputs, i.text = none ∧ (endOf history inputs results).ending = some .textless := by
  rw [endOf]
  rcases refused?_cases inputs with hrefused | ⟨k, hk, hrefused, ⟨htext, hnone⟩ | ⟨d, hd⟩⟩
  · rw [hrefused]
    exact .inl (.inl rfl)
  · rw [hrefused, Option.map_some, hnone]
    exact .inr ⟨k, hk, htext, rfl⟩
  · rw [hrefused, Option.map_some, hd]
    exact .inl (.inr ⟨d, rfl, Input.isRefusal_of_refusal? hd⟩)

/-- The report of a run up to the first error is that of the same run to the end, broken off
there. -/
theorem run_truncates {s : Settings} {files : Files} (hfull : s.failFast = false)
    (hfiles : ∀ path ∈ s.paths, ∀ e, readText files path ≠ .error (.broken e)) :
    (∃ p, s.Lacks p ∧ s.run files = .error (.valueless p)) ∨
    ∃ full early, s.run files = .ok full ∧ s.withFailFast.run files = .ok early ∧
      early.Truncates full := by
  cases hpreset : s.preset with
  | none => exact .inl ⟨.preset, hpreset, run_of_lacks_preset hpreset⟩
  | some preset =>
    rcases readable_or_unreadable hfiles with
      hread | ⟨before, path, after, e, hpaths, hbefore, hpath⟩
    · obtain ⟨contents, hcontents⟩ := exists_contents hread
      rcases Settings.inputs_eq hcontents with hinputs | ⟨hnone, hbroken⟩
      · obtain ⟨results, hgives, hprocess⟩ := process_completes s preset (s.named contents)
        rcases endOf_orderly preset.declarations (s.named contents) results with
          horderly | ⟨k, hk, htext, hending⟩
        · obtain ⟨full, early, hlate, hsoon, htruncates⟩ := conclude_truncates hprocess
            (fun e es => process_haltsAt hgives) horderly
          refine .inr ⟨full, early, ?_, ?_, htruncates⟩
          · rw [run_eq_conclude hpreset hinputs, hfull]
            exact hlate
          · have hrun := run_eq_conclude (s := s.withFailFast) hpreset hinputs
            exact hrun.trans hsoon
        · obtain ⟨j, hended, -⟩ := hprocess none {} (Limit.allows_none _)
          have hrun := run_eq_conclude hpreset hinputs
          rw [hfull, if_neg Bool.false_ne_true, Reporting.run, hended,
            conclude_of_textless hending] at hrun
          exact .inl ⟨.expression, Settings.lacks_of_text_eq_none hk htext, hrun⟩
      · exact .inl ⟨.declarations, hnone, run_of_broken hpreset hbroken⟩
    · rcases Settings.inputs_unreadable hpaths hbefore hpath with hinputs | ⟨hnone, hbroken⟩
      · have hprocess : Completes (s.process preset (.error (path, e))) _ [] :=
          (registry_completes preset).bind (completes_pure _)
        obtain ⟨full, early, hlate, hsoon, htruncates⟩ := conclude_truncates hprocess
          (fun _ _ h => by cases h) (.inr ⟨_, rfl, .inl ⟨path, e, rfl⟩⟩)
        refine .inr ⟨full, early, ?_, ?_, htruncates⟩
        · rw [run_eq_conclude_unreadable hpreset hinputs, hfull]
          exact hlate
        · have hrun := run_eq_conclude_unreadable (s := s.withFailFast) hpreset hinputs
          exact hrun.trans hsoon
      · exact .inl ⟨.declarations, hnone, run_of_broken hpreset hbroken⟩

/-- Arguments that ask for a run over a source file and an expression. -/
def stopArguments : List String := ["--preset", "none", "src", "-e", "x **"]

/-- What these arguments ask for. -/
def stopSettings : Settings where
  sources := ["src"]
  expressions := [some "x **"]
  preset := some .none

/-- A source file whose second statement has an operator that is not declared. -/
def stopText : String :=
  "x ** y\nx ** y <> z ** w\nx ** z\n" ++
    "precedencegroup Power \x7b associativity: right \x7d\ninfix operator ** : Power"

/-- The arguments are accepted, and ask for what they should. -/
theorem ofArguments_stopArguments : Settings.ofArguments stopArguments = .ok stopSettings := by
  have hclassified : Argument.classifyAll stopArguments = .ok
      [.option (.parameter .preset) "--preset" none, .word "none", .word "src",
        .option (.parameter .expression) "-e" none, .word "x **"] := by
    decide +kernel
  have hpreset : Preset.ofText? "none" = some .none := by decide +kernel
  have hsource : normalizePath "src" = "src" := by decide +kernel
  rw [Settings.ofArguments, hclassified]
  simp [Consumed.consume, Request.ofOption, Settings.assign, Settings.given, Settings.withSources,
    Argument.isPositional, Argument.text, Except.mapError, bind, Except.bind, pure, Except.pure,
    hpreset, hsource, stopSettings]

/-- **To fail at the first error is to break off the run to the end.** Let arguments be accepted
that do not have `--fail-fast` among them, and let the files that they name be texts or be
unreadable. With the switch in front the arguments are accepted, too, and wherever else it is
accepted, it asks for the same. The run that it asks for has the first diagnostic of the run
without it, or none if there is none, and the first of its results, which are all of them unless
there is a precedence error. It exits with zero if the other does, with one if the first diagnostic
of the other is a precedence error, and with two if that is about an input that cannot be read or is
no source text. Only a parameter without a value, where the arguments have two dashes instead of
one, can keep the run without the switch from a report. -/
theorem run_failFast {arguments : List String} {s : Settings} {files : Files}
    (haccepted : Settings.ofArguments arguments = .ok s) (hfull : s.failFast = false)
    (hfiles : ∀ path ∈ s.paths, ∀ e, readText files path ≠ .error (.broken e)) :
    Settings.ofArguments ("--fail-fast" :: arguments) = .ok s.withFailFast ∧
    (∀ before after other, arguments = before ++ after → "--" ∉ before →
      Settings.ofArguments (before ++ "--fail-fast" :: after) = .ok other →
      other = s.withFailFast) ∧
    ((∃ p, s.Lacks p ∧ s.run files = .error (.valueless p)) ∨
      ∃ full early, s.run files = .ok full ∧ s.withFailFast.run files = .ok early ∧
        early.Truncates full) := by
  refine ⟨Settings.ofArguments_failFast haccepted, ?_, run_truncates hfull hfiles⟩
  rintro before after other rfl hseparator hother
  obtain ⟨same, hsame, hother⟩ := Settings.ofArguments_of_failFast hseparator hother
  rw [haccepted] at hsame
  injection hsame with hsame
  rw [hother, hsame]

/-- The run up to the first error stops in the middle of the second statement. -/
theorem run_failFast_stop :
    Settings.ofArguments stopArguments = .ok stopSettings ∧ stopSettings.failFast = false ∧
    (∀ path ∈ stopSettings.paths, ∀ e,
      readText (fun _ => .text stopText) path ≠ .error (.broken e)) ∧
    ∃ full early, stopSettings.run (fun _ => .text stopText) = .ok full ∧
      stopSettings.withFailFast.run (fun _ => .text stopText) = .ok early ∧ early.Truncates full ∧
      full.results.map (·.folded) = ["x ** y", "x ** y <> z ** w", "x ** z"] ∧
      full.diagnostics.map (·.code) = [some "missingOperator", some "parseError"] ∧
      early.results.map (·.folded) = ["x ** y"] ∧ early.exitCode = 1 := by
  have hfiles : ∀ path ∈ stopSettings.paths, ∀ e,
      readText (fun _ => .text stopText) path ≠ .error (.broken e) := by
    have hread : ∀ path ∈ stopSettings.paths,
        readText (fun _ => .text stopText) path = .ok stopText := by decide +kernel
    intro path hpath e hbroken
    rw [hread path hpath] at hbroken
    cases hbroken
  have hevalFull : (stopSettings.run (fun _ => .text stopText)).toOption.map (fun report =>
      (report.results.map (·.folded), report.diagnostics.map (·.code))) =
      some (["x ** y", "x ** y <> z ** w", "x ** z"],
        [some "missingOperator", some "parseError"]) := by
    decide +kernel
  have hevalEarly : (stopSettings.withFailFast.run (fun _ => .text stopText)).toOption.map
      (fun report => (report.results.map (·.folded), report.exitCode)) = some (["x ** y"], 1) := by
    decide +kernel
  refine ⟨ofArguments_stopArguments, rfl, hfiles, ?_⟩
  obtain ⟨-, -, ⟨p, hlacks, -⟩ | ⟨full, early, hlate, hsoon, htruncates⟩⟩ :=
    run_failFast ofArguments_stopArguments rfl hfiles
  · cases p <;> simp [Settings.Lacks, stopSettings] at hlacks
  · rw [hlate] at hevalFull
    rw [hsoon] at hevalEarly
    injection hevalFull with hevalFull
    injection hevalFull with hresults hdiagnostics
    injection hevalEarly with hevalEarly
    injection hevalEarly with hfirst hexit
    exact ⟨full, early, hlate, hsoon, htruncates, hresults, hdiagnostics, hfirst, hexit⟩

/-- Arguments with an operator that is not declared. The text of the second expression should stand
where the two dashes do, which are dropped. -/
def textlessArguments : List String := ["-e", "a <> b", "-e--"]

/-- What these arguments ask for. -/
def textlessSettings : Settings where
  expressions := [some "a <> b", none]

/-- Not every run up to the first error breaks off a report of the run to the end. These arguments
are accepted and name no file. Up to the first error, which is in the first expression, the run has
a report and exits with one; to the end, it has none. -/
theorem no_report_of_textless :
    Settings.ofArguments textlessArguments = .ok textlessSettings ∧
    textlessSettings.failFast = false ∧ textlessSettings.paths = [] ∧
    ∀ files, (¬∃ full, textlessSettings.run files = .ok full) ∧
      ∃ early, textlessSettings.withFailFast.run files = .ok early ∧
        early.diagnostics.map (·.code) = [some "missingOperator"] ∧ early.exitCode = 1 := by
  have hclassified : Argument.classifyAll textlessArguments = .ok
      [.option (.parameter .expression) "-e" none, .word "a <> b",
        .option (.parameter .expression) "-e" (some "--")] := by
    decide +kernel
  have hevalFull : (textlessSettings.run fun _ => .undecodable).toOption.map (·.exitCode) = none :=
    by decide +kernel
  have hevalEarly : (textlessSettings.withFailFast.run fun _ => .undecodable).toOption.map
      (fun report => (report.diagnostics.map (·.code), report.exitCode)) =
      some ([some "missingOperator"], 1) := by
    decide +kernel
  refine ⟨?_, rfl, rfl, fun files => ?_⟩
  · rw [Settings.ofArguments, hclassified]
    simp [Consumed.consume, Request.ofOption, Settings.assign, Settings.given, Except.mapError,
      bind, Except.bind, pure, Except.pure, textlessSettings]
  · -- no file is named, so the runs are those over any other files
    have hfull : textlessSettings.run files = textlessSettings.run fun _ => .undecodable := rfl
    have hearly : textlessSettings.withFailFast.run files =
      textlessSettings.withFailFast.run fun _ => .undecodable := rfl
    rw [hfull, hearly]
    constructor
    · rintro ⟨full, hrun⟩
      rw [hrun] at hevalFull
      cases hevalFull
    · cases hrun : textlessSettings.withFailFast.run fun _ => .undecodable with
      | error e =>
        rw [hrun] at hevalEarly
        cases hevalEarly
      | ok early =>
        rw [hrun] at hevalEarly
        injection hevalEarly with hevalEarly
        injection hevalEarly with hdiagnostics hexit
        exact ⟨early, rfl, hdiagnostics, hexit⟩

end OperatorFold.CommandLine
