import OperatorFold.Proofs.CommandLine.Folding
import OperatorFold.Proofs.CommandLine.Inputs

/-! # The meaning of a run

A run takes its inputs in order, up to the first one that is no source text. What its report says of
them (`Report.Tells`) speaks of every input on its own: its results and errors follow from its text
and from all declarations in front of it. `run_tells` says that this is the report of the run.
-/

namespace OperatorFold.CommandLine

open Reporting Registry

/-! ## Endings -/

/-- The diagnostic of an input whose text is no source text. -/
def Input.refusal? (i : Input) : Option Diagnostic := do
  let text ← i.text
  match Source.parseSource text (some i.file) with
  | .error e => some (parseDiagnostic i.file e)
  | .ok _ => none

variable {p : Progress} {i : Input}

/-- Only an input without a text is refused without a diagnostic. -/
theorem Input.text_eq_none (hparses : i.parses = false) (hrefusal : i.refusal? = none) :
    i.text = none := by
  cases htext : i.text with
  | none => rfl
  | some text =>
    cases hparse : Source.parseSource text (some i.file) with
    | error e => simp [refusal?, htext, hparse] at hrefusal
    | ok source => simp [parses, source?, htext, hparse, Except.toOption] at hparses

/-- An input that is no source text ends the run, with its diagnostic if it has a text at all. -/
theorem takeInput_of_not_parses (h : i.parses = false) (parenthesize : Bool) :
    p.takeInput parenthesize i =
      pure { p with ending := some (i.refusal?.elim .textless .refused) } := by
  rw [Progress.takeInput, Input.refusal?]
  cases htext : i.text with
  | none => rfl
  | some text =>
    simp only [Progress.takeText]
    cases hparse : Source.parseSource text (some i.file) with
    | error e => simp [hparse]
    | ok source => simp [Input.parses, Input.source?, htext, hparse, Except.toOption] at h

/-- The inputs in front of the first one that is no source text. -/
def taken (inputs : List Input) : List Input := inputs.takeWhile (·.parses)

/-- The first input that is no source text. -/
def refused? (inputs : List Input) : Option Input := inputs.find? (!·.parses)

/-- Either all inputs are source texts, or a first one is not. That one is refused, or else it has
no text. -/
theorem refused?_cases (inputs : List Input) :
    refused? inputs = none ∨ ∃ k ∈ inputs, refused? inputs = some k ∧
      (k.text = none ∧ k.refusal? = none ∨ ∃ d, k.refusal? = some d) := by
  cases hrefused : refused? inputs with
  | none => exact .inl rfl
  | some k =>
    refine .inr ⟨k, List.mem_of_find?_eq_some hrefused, rfl, ?_⟩
    cases hrefusal : k.refusal? with
    | none =>
      have hk : k.parses = false := by simpa using List.find?_some hrefused
      exact .inl ⟨k.text_eq_none hk hrefusal, rfl⟩
    | some d => exact .inr ⟨d, rfl⟩

/-- The end of a run over inputs, with all declarations in front of it and these results. -/
def endOf (history : List Declaration) (inputs : List Input) (results : List Result) :
    Progress where
  registry := holding (historyAt history (taken inputs))
  results := results
  ending := (refused? inputs).map (·.refusal?.elim .textless .refused)

/-- Inputs are taken up to the first one that is no source text. -/
theorem takeInputs_completes (parenthesize : Bool) (history : List Declaration)
    (inputs : List Input) :
    ∃ results, List.Forall₂ (Job.Gives · parenthesize ·) (jobsOf history (taken inputs)) results ∧
      Completes (Progress.takeInputs parenthesize { registry := holding history } inputs)
        (endOf history inputs results) (errorsOf history (taken inputs)) := by
  have hread : ∀ i ∈ taken inputs, i.parses := by
    intro i hi
    exact List.mem_takeWhile_imp hi
  obtain ⟨results, hgives, hrun⟩ := @takeInputs_append { registry := holding history } history
    parenthesize _ hread rfl rfl
  have hinputs : taken inputs ++ inputs.dropWhile (·.parses) = inputs :=
    List.takeWhile_append_dropWhile
  have hrefused : refused? inputs = (inputs.dropWhile (·.parses)).head? :=
    List.find?_not_eq_head?_dropWhile _ _
  have hrest := hrun (inputs.dropWhile (·.parses))
  rw [hinputs] at hrest
  refine ⟨results, hgives, ?_⟩
  rw [endOf, hrefused, ← List.append_nil (errorsOf history _)]
  apply hrest
  cases hdrop : inputs.dropWhile (·.parses) with
  | nil =>
    exact completes_pure _
  | cons k others =>
    have hfound : refused? inputs = some k := by rw [hrefused, hdrop, List.head?_cons]
    have hk : k.parses = false := by simpa using List.find?_some hfound
    rw [Progress.takeInputs, takeInput_of_not_parses hk]
    exact completes_pure _

/-! ## The report -/

/-- What is made of the end of a run: its report, unless a value was missing. -/
def conclude (ended : Except Halt Progress × Journal) : Except RunError Report :=
  match ended with
  | (.ok ⟨_, _, some .textless⟩, _) => .error (.valueless .expression)
  | (result, journal) => .ok (.ofRun result journal)

section Conclude

variable {s : Settings} {files : Files} {preset : Preset} {inputs : List Input} {j : Journal}

/-- With a ready-made table and inputs, a run is the process over both, up to the limit. -/
theorem run_eq_conclude (hpreset : s.preset = some preset) (hinputs : s.inputs files = .ok inputs) :
    s.run files =
      conclude ((s.process preset (.ok inputs)).run (if s.failFast then some 1 else none)) := by
  rw [Settings.run, hpreset, hinputs]
  rfl

/-- With a file that cannot be read, a run is the process that refuses it. -/
theorem run_eq_conclude_unreadable {path : String} {e : FileError}
    (hpreset : s.preset = some preset) (hinputs : s.inputs files = .error (.unreadable path e)) :
    s.run files = conclude
      ((s.process preset (.error (path, e))).run (if s.failFast then some 1 else none)) := by
  rw [Settings.run, hpreset, hinputs]
  rfl

/-- Without a ready-made table a run breaks off. -/
theorem run_of_lacks_preset (h : s.preset = none) : s.run files = .error (.valueless .preset) := by
  rw [Settings.run, h]
  rfl

/-- What breaks off the reading of inputs breaks off the run. -/
theorem run_of_broken {e : RunError} (hpreset : s.preset = some preset)
    (hinputs : s.inputs files = .error (.broken e)) : s.run files = .error e := by
  rw [Settings.run, hpreset, hinputs]
  rfl

/-- All named inputs are taken behind the ready-made table. -/
theorem process_completes (s : Settings) (preset : Preset) (inputs : List Input) :
    ∃ results, List.Forall₂ (Job.Gives · s.parenthesize ·)
        (jobsOf preset.declarations (taken inputs)) results ∧
      Completes (s.process preset (.ok inputs)) (endOf preset.declarations inputs results)
        (errorsOf preset.declarations (taken inputs)) := by
  obtain ⟨results, hgives, hrun⟩ := takeInputs_completes s.parenthesize preset.declarations inputs
  exact ⟨results, hgives, (registry_completes preset).bind hrun⟩

/-- What a report says of inputs, behind the declarations that a run starts with. There is one
result for every statement that counts in the inputs that were taken, in order. The diagnostics are
those of these inputs, one input after another, and then one for the input that is no source text.
The exit code is two if there is such an input, else one if there is a diagnostic, and else zero. -/
structure Report.Tells (report : Report) (parenthesize : Bool) (history : List Declaration)
    (inputs : List Input) : Prop where
  results : List.Forall₂ (Job.Gives · parenthesize ·) (jobsOf history (taken inputs))
    report.results
  diagnostics : report.diagnostics.map some =
    (errorsOf history (taken inputs)).map (some ·.diagnostic) ++
      ((refused? inputs).map Input.refusal?).toList
  exitCode : report.exitCode =
    if (refused? inputs).isSome then 2 else if report.diagnostics.isEmpty then 0 else 1

/-- The end of a run over inputs is a report of them, or else the value of the expression is missing
that would be read next. -/
theorem conclude_tells {parenthesize : Bool} {history : List Declaration} {results : List Result}
    (hgives : List.Forall₂ (Job.Gives · parenthesize ·) (jobsOf history (taken inputs)) results)
    (hj : j.errors = errorsOf history (taken inputs)) :
    (∃ k ∈ inputs, k.text = none ∧
      conclude (.ok (endOf history inputs results), j) = .error (.valueless .expression)) ∨
    ∃ report, conclude (.ok (endOf history inputs results), j) = .ok report ∧
      report.Tells parenthesize history inputs := by
  rw [endOf]
  -- all inputs were taken, or one has no text, or one is refused with a diagnostic
  rcases refused?_cases inputs with hrefused | ⟨k, hk, hrefused, ⟨htext, hnone⟩ | ⟨d, hd⟩⟩
  · rw [hrefused]
    refine .inr ⟨_, rfl, hgives, ?_, ?_⟩
    · rw [hrefused, ← hj]
      simp [Report.ofRun]
    · rw [hrefused]
      obtain ⟨errors, log⟩ := j
      cases errors <;> rfl
  · rw [hrefused, Option.map_some, hnone]
    exact .inl ⟨k, hk, htext, rfl⟩
  · rw [hrefused, Option.map_some, hd]
    refine .inr ⟨_, rfl, hgives, ?_, ?_⟩
    · rw [hrefused, ← hj, Option.map_some, hd]
      simp [Report.ofRun]
    · rw [hrefused]
      rfl

end Conclude

/-- A run without a ready-made table, over a file of declarations, a source file and two
expressions. -/
def chainSettings : Settings where
  sources := ["chain.ops"]
  expressions := [some "x ** y", some "x **"]
  preset := some .none
  declarations := [some "groups.ops"]
  parenthesize := true

/-- The files hold a group and a chain of operators in front of their declaration, which is made
twice. -/
def chainContents (path : String) : String :=
  if path = "groups.ops" then "precedencegroup Power \x7b associativity: right \x7d"
  else "x ** y ** z\ninfix operator ** : Power\ninfix operator **"

/-- **A run is what its inputs come to.** Let errors not end it. If all named files can be read, its
report tells of the files of declarations, the source files and the expressions, in this order,
behind the ready-made table that was asked for. If not, nothing is taken: the report has no results,
a diagnostic for the first file that cannot be read and the exit code two. Only a parameter without
a value, where the arguments have two dashes instead of one, can keep a run from a report. -/
theorem run_tells (s : Settings) (files : Files) (hfull : s.failFast = false) :
    (∃ p, s.Lacks p ∧ s.run files = .error (.valueless p)) ∨
    (∀ contents, (∀ path ∈ s.paths, readText files path = .ok (contents path)) →
      ∃ preset report, s.preset = some preset ∧ s.run files = .ok report ∧
        report.Tells s.parenthesize preset.declarations (s.named contents)) ∧
    ∀ before path after e, s.paths = before ++ path :: after →
      (∀ path ∈ before, ∃ text, readText files path = .ok text) →
      readText files path = .error (.unreadable path e) →
      ∃ report, s.run files = .ok report ∧ report.results = [] ∧
        report.diagnostics = [fileDiagnostic path e] ∧ report.exitCode = 2 := by
  -- where a missing value breaks the run off, there is no report to speak of
  by_cases hlacks : ∃ p, s.Lacks p ∧ s.run files = .error (.valueless p)
  · exact .inl hlacks
  obtain ⟨preset, hpreset⟩ : ∃ preset, s.preset = some preset := by
    cases hpreset : s.preset with
    | none => exact absurd ⟨.preset, hpreset, run_of_lacks_preset hpreset⟩ hlacks
    | some preset => exact ⟨preset, rfl⟩
  refine .inr ⟨fun contents hread => ?_, fun before path after e hpaths hbefore hpath => ?_⟩
  · -- all files can be read, so the report is that of the inputs
    rcases Settings.inputs_eq hread with hinputs | ⟨hnone, hbroken⟩
    · obtain ⟨results, hgives, hprocess⟩ := process_completes s preset (s.named contents)
      obtain ⟨j, hended, hj⟩ := hprocess none {} (Limit.allows_none _)
      have hrun := run_eq_conclude hpreset hinputs
      rw [hfull, if_neg Bool.false_ne_true, Reporting.run, hended] at hrun
      rcases conclude_tells hgives hj with
        ⟨k, hk, htext, hconclude⟩ | ⟨report, hconclude, htells⟩
      · have hnone := Settings.lacks_of_text_eq_none hk htext
        exact absurd ⟨.expression, hnone, hrun.trans hconclude⟩ hlacks
      · exact ⟨preset, report, hpreset, hrun.trans hconclude, htells⟩
    · exact absurd ⟨.declarations, hnone, run_of_broken hpreset hbroken⟩ hlacks
  · -- a file cannot be read, and then only the ready-made table is loaded
    rcases Settings.inputs_unreadable hpaths hbefore hpath with hinputs | ⟨hnone, hbroken⟩
    · have hprocess : Completes (s.process preset (.error (path, e))) _ [] :=
        (registry_completes preset).bind (completes_pure _)
      obtain ⟨j, hended, hj⟩ := hprocess none {} (Limit.allows_none _)
      have hrun := run_eq_conclude_unreadable hpreset hinputs
      rw [hfull, if_neg Bool.false_ne_true, Reporting.run, hended] at hrun
      have herrors : j.errors = [] := hj
      refine ⟨_, hrun, rfl, ?_, rfl⟩
      simp only [Report.ofRun, herrors]
      rfl
    · exact absurd ⟨.declarations, hnone, run_of_broken hpreset hbroken⟩ hlacks

/-- The repeated declaration is reported, and then the expression that is not complete; the results
in front of it stay. -/
theorem run_tells_chain :
    chainSettings.failFast = false ∧
    (∀ path ∈ chainSettings.paths,
      readText (.text ∘ chainContents) path = .ok (chainContents path)) ∧
    ∃ report, chainSettings.run (.text ∘ chainContents) = .ok report ∧
      report.Tells true [] (chainSettings.named chainContents) ∧
      report.results.map (·.folded) = ["(x ** (y ** z))", "(x ** y)"] ∧
      report.diagnostics.map (·.code) = [some "operatorAlreadyExists", some "parseError"] ∧
      report.exitCode = 2 := by
  have hread : ∀ path ∈ chainSettings.paths,
      readText (.text ∘ chainContents) path = .ok (chainContents path) := by decide +kernel
  have heval : (chainSettings.run (.text ∘ chainContents)).toOption.map (fun report =>
      (report.results.map (·.folded), report.diagnostics.map (·.code), report.exitCode)) =
      some (["(x ** (y ** z))", "(x ** y)"],
        [some "operatorAlreadyExists", some "parseError"], 2) := by
    decide +kernel
  refine ⟨rfl, hread, ?_⟩
  rcases run_tells chainSettings (.text ∘ chainContents) rfl with ⟨p, hlacks, -⟩ | ⟨hreports, -⟩
  · cases p <;> simp [Settings.Lacks, chainSettings] at hlacks
  · obtain ⟨preset, report, hpreset, hrun, htells⟩ := hreports chainContents hread
    cases hpreset
    rw [hrun] at heval
    injection heval with heval
    injection heval with hresults heval
    injection heval with hdiagnostics hexit
    exact ⟨report, hrun, htells, hresults, hdiagnostics, hexit⟩

/-- Arguments that ask for one expression. The name of the ready-made table should stand where the
two dashes do, which are dropped. -/
def tablelessArguments : List String := ["--preset=--", "-e", "a"]

/-- What these arguments ask for. -/
def tablelessSettings : Settings where
  expressions := [some "a"]
  preset := none

/-- Not every run that is accepted has a report of its inputs. These arguments are accepted and name
no file, but without a ready-made table there is nothing to read the expression behind. -/
theorem no_report_of_tableless :
    Settings.ofArguments tablelessArguments = .ok tablelessSettings ∧
    tablelessSettings.failFast = false ∧ tablelessSettings.paths = [] ∧
    ∀ files, tablelessSettings.run files = .error (.valueless .preset) ∧
      ¬∃ report, tablelessSettings.run files = .ok report := by
  have hclassified : Argument.classifyAll tablelessArguments = .ok
      [.option (.parameter .preset) "--preset" (some "--"),
        .option (.parameter .expression) "-e" none, .word "a"] := by
    decide +kernel
  refine ⟨?_, rfl, rfl, fun files => ?_⟩
  · rw [Settings.ofArguments, hclassified]
    simp [Consumed.consume, Request.ofOption, Settings.assign, Settings.given, Except.mapError,
      bind, Except.bind, pure, Except.pure, tablelessSettings]
  · have hrun : tablelessSettings.run files = .error (.valueless .preset) :=
      run_of_lacks_preset rfl
    refine ⟨hrun, ?_⟩
    rintro ⟨report, hreport⟩
    rw [hrun] at hreport
    cases hreport

end OperatorFold.CommandLine
