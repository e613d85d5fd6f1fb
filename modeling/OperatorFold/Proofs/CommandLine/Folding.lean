import OperatorFold.CommandLine.Run
import OperatorFold.Proofs.Precedence.Loading
import OperatorFold.Proofs.Source.Grouped

/-! # What a run makes of its inputs

Each input is loaded and folded on its own, save for the declarations in front of it: a `Job` is a
statement together with all declarations that count for it, wherever they stand in its file. What is
reported of an input follows from its text and from these declarations (`Input.errors`). A run that
has come to some input holds just the declarations in front of it, so it goes on with the results
and errors of this input (`takeInput_completes`). Behind several inputs it has those of all of them,
in their order (`takeInputs_append`).
-/

namespace OperatorFold.CommandLine

open Reporting Registry

/-! ## Jobs -/

/-- A statement to fold: the declarations that count for it, in order, and the file it stands in. -/
structure Job where
  declarations : List Declaration
  file : String
  statement : Node

namespace Job

/-- The fold of the statement. -/
def fold (job : Job) : Reporting Substitute := (holding job.declarations).foldTree job.statement

/-- A result says where the statement stands, and has its text before and after the fold. -/
structure Gives (job : Job) (parenthesize : Bool) (result : Result) : Prop where
  file_eq : result.file = job.file
  line_eq : result.line = (Source.spanOf job.statement).line
  source_eq : job.statement.render = .ok result.source
  folded_eq : ∃ outcome, job.fold.collect = .ok outcome ∧
    (if parenthesize then outcome.value.node.renderGrouped else outcome.value.node.render) =
      .ok result.folded

/-- The result of a statement has its text, and that of its fold in the way asked for. -/
theorem ofFold_eq {parenthesize : Bool} {file source text : String} {statement folded : Node}
    (htext : (if parenthesize then folded.renderGrouped else folded.render) = .ok text)
    (hsource : statement.render = .ok source) :
    Result.ofFold parenthesize file statement folded =
      .ok ⟨file, (Source.spanOf statement).line, source, text⟩ := by
  cases parenthesize with
  | true =>
    rw [if_pos rfl] at htext
    rw [Result.ofFold, if_pos rfl, htext, hsource]
    rfl
  | false =>
    rw [if_neg Bool.false_ne_true] at htext
    rw [Result.ofFold, if_neg Bool.false_ne_true, htext, hsource]
    rfl

/-- A job gives one result only. -/
theorem Gives.unique {job : Job} {parenthesize : Bool} {result other : Result}
    (h : job.Gives parenthesize result) (h' : job.Gives parenthesize other) : result = other := by
  obtain ⟨outcome, hfold, htext⟩ := h.folded_eq
  obtain ⟨outcome', hfold', htext'⟩ := h'.folded_eq
  rw [hfold] at hfold'
  cases hfold'
  have hfolded := htext.symm.trans htext'
  have hsource := h.source_eq.symm.trans h'.source_eq
  injection hfolded with hfolded
  injection hsource with hsource
  obtain ⟨file, line, source, folded⟩ := result
  obtain ⟨file', line', source', folded'⟩ := other
  rw [Result.mk.injEq]
  exact ⟨h.file_eq.trans h'.file_eq.symm, h.line_eq.trans h'.line_eq.symm, hsource, hfolded⟩

/-- A statement that has been read from a source. -/
def FromSource (job : Job) : Prop := ∃ e span, job.statement = .statement e span ∧ e.SourceTree

/-- A statement from a source folds, and its fold makes a result. -/
theorem FromSource.exists_gives {job : Job} (h : job.FromSource) (parenthesize : Bool) :
    ∃ folded result, Yields job.fold folded job.fold.errors ∧
      Result.ofFold parenthesize job.file job.statement folded.node = .ok result ∧
      job.Gives parenthesize result := by
  obtain ⟨e, span, hstatement, he⟩ := h
  -- the tree comes from a source text, so it folds, and both it and its fold have texts
  obtain ⟨m, es, hfolds, -⟩ := (holding job.declarations).exists_folds he.1.wellFormed
  obtain ⟨source, hsource, -⟩ := he.1.spelled
  obtain ⟨grouped, hgrouped, -⟩ := (hfolds.groupShaped he.1).exists_renderGrouped
  have hfold := (hfolds.statement span).yields_foldTree
  rw [← hstatement] at hfold
  have hrender : job.statement.render = .ok source := by
    rw [hstatement, Node.render]
    exact hsource
  obtain ⟨text, htext⟩ : ∃ text, (if parenthesize then (Node.statement m span).renderGrouped
      else (Node.statement m span).render) = .ok text := by
    rw [Node.renderGrouped, Node.render]
    cases parenthesize with
    | true => exact ⟨grouped, hgrouped⟩
    | false => exact ⟨source, hfolds.render hsource⟩
  refine ⟨⟨.statement m span, !job.statement.containsSequence⟩,
    ⟨job.file, (Source.spanOf job.statement).line, source, text⟩, ?_, ?_, ?_⟩
  · rw [fold, hfold.errors_eq]
    exact hfold
  · exact ofFold_eq htext hrender
  · exact ⟨rfl, rfl, hrender, _, hfold.collect, htext⟩

end Job

/-! ## Statements -/

variable {p : Progress} {history : List Declaration} {file : String}

/-- Statements fold one after another, each to its result. -/
theorem foldStatements_completes (parenthesize : Bool) {statements : List Node}
    (hp : p.registry = holding history)
    (h : ∀ n ∈ statements, Job.FromSource ⟨history, file, n⟩) :
    ∃ results,
      List.Forall₂ (Job.Gives · parenthesize ·) (statements.map (Job.mk history file)) results ∧
      Completes (p.foldStatements parenthesize file statements)
        { p with results := p.results ++ results }
        ((statements.map (Job.mk history file)).flatMap (·.fold.errors)) := by
  induction statements generalizing p with
  | nil =>
    refine ⟨[], .nil, ?_⟩
    rw [List.append_nil]
    exact completes_pure p
  | cons n rest ih =>
    rw [List.forall_mem_cons] at h
    obtain ⟨folded, result, hfold, hresult, hgives⟩ := h.1.exists_gives parenthesize
    obtain ⟨registry, before, ending⟩ := p
    cases hp
    -- the results are collected in the state, so the others start behind the first one
    obtain ⟨results, hall, hrest⟩ := @ih ⟨holding history, before ++ [result], ending⟩ rfl h.2
    refine ⟨result :: results, .cons hgives hall, ?_⟩
    rw [List.append_cons, Progress.foldStatements]
    refine hfold.completes.attempt.bind ?_
    simp only [hresult]
    exact hrest

/-! ## Inputs -/

namespace Input

/-- The source file that an input holds, if its text is a source text. -/
def source? (i : Input) : Option Source.SourceFile :=
  i.text.bind fun text => (Source.parseSource text (some i.file)).toOption

/-- Whether an input holds a source file. -/
def parses (i : Input) : Bool := i.source?.isSome

/-- The declarations of an input. -/
def declarations (i : Input) : List Declaration :=
  i.source?.elim [] (·.declarations)

/-- The statements of an input, if they count. -/
def statements (i : Input) : List Node :=
  if i.folds then i.source?.elim [] (·.statements) else []

/-- The statements of an input as jobs. All declarations of the input count for each of them, behind
those that came before. -/
def jobs (history : List Declaration) (i : Input) : List Job :=
  i.statements.map (Job.mk (history ++ i.declarations) i.file)

/-- What is reported of an input. For each declaration that is about a name or key taken by an
earlier one there is an error, and then there are the errors of the folds. -/
def errors (history : List Declaration) (i : Input) : List PrecedenceError :=
  ((withEarlier i.declarations).filterMap fun entry =>
    Registry.empty.clash (history ++ entry.1) entry.2) ++
  (i.jobs history).flatMap (·.fold.errors)

end Input

variable {i : Input} {source : Source.SourceFile}

namespace Input

/-- An input is a source text if it has a text that is read as one. -/
theorem parseSource_of_source? (h : i.source? = some source) :
    ∃ text, i.text = some text ∧ Source.parseSource text (some i.file) = .ok source := by
  obtain ⟨text, htext, hparse⟩ := Option.bind_eq_some_iff.mp h
  refine ⟨text, htext, ?_⟩
  cases hresult : Source.parseSource text (some i.file) with
  | error e =>
    rw [hresult] at hparse
    cases hparse
  | ok other =>
    rw [hresult] at hparse
    cases hparse
    rfl

theorem declarations_eq (h : i.source? = some source) :
    i.declarations = declarationsOf source.items := by
  rw [declarations, h]
  rfl

theorem statements_eq (h : i.source? = some source) :
    i.statements = if i.folds then source.statements else [] := by
  rw [statements, h]
  rfl

/-- The statements of an input come from a source text. -/
theorem fromSource_of_mem_statements (h : i.source? = some source) {n : Node}
    (hn : n ∈ i.statements) : Job.FromSource ⟨history, file, n⟩ := by
  obtain ⟨text, -, hparse⟩ := parseSource_of_source? h
  rw [statements_eq h] at hn
  split at hn
  · exact Source.sourceTree_of_parseSource hparse n hn
  · cases hn

end Input

/-- What a load reports behind some declarations. -/
theorem loadErrors_holding (history : List Declaration) (items : List (Item Node)) :
    (holding history).loadErrors items = (withEarlier (declarationsOf items)).filterMap fun entry =>
      Registry.empty.clash (history ++ entry.1) entry.2 := by
  rw [loadErrors_eq, holding, loadErrors_record]

/-- A load behind some declarations adds its own to them. -/
theorem load_holding_completes (history : List Declaration) (items : List (Item Node)) :
    Completes ((holding history).load items)
      { registry := holding (history ++ declarationsOf items) }
      ((withEarlier (declarationsOf items)).filterMap fun entry =>
        Registry.empty.clash (history ++ entry.1) entry.2) := by
  rw [holding_append, ← record_eq, ← loadErrors_holding]
  exact load_completes _ items

/-- Where statements do not count, the fold of no statements comes to the same. -/
theorem ite_foldStatements (hsource : i.source? = some source) (parenthesize : Bool)
    (p : Progress) :
    (if i.folds then p.foldStatements parenthesize i.file source.statements else pure p) =
      p.foldStatements parenthesize i.file i.statements := by
  rw [Input.statements_eq hsource]
  cases i.folds <;> rfl

/-- A source text is loaded behind the declarations in front of it, and then its
statements are folded. -/
theorem takeInput_completes (parenthesize : Bool) (hp : p.registry = holding history)
    (hsource : i.source? = some source) :
    ∃ results, List.Forall₂ (Job.Gives · parenthesize ·) (i.jobs history) results ∧
      Completes (p.takeInput parenthesize i)
        { registry := holding (history ++ i.declarations), results := p.results ++ results }
        (i.errors history) := by
  obtain ⟨text, htext, hparse⟩ := i.parseSource_of_source? hsource
  -- the declarations of the whole input are loaded before its first statement is folded
  have hload := load_holding_completes history source.items
  rw [← hp, ← Input.declarations_eq hsource] at hload
  have hfrom : ∀ n ∈ i.statements, Job.FromSource ⟨history ++ i.declarations, i.file, n⟩ :=
    fun n hn => Input.fromSource_of_mem_statements hsource hn
  obtain ⟨results, hgives, hfold⟩ := @foldStatements_completes
    ⟨holding (history ++ i.declarations), p.results, none⟩ _ i.file parenthesize i.statements rfl
    hfrom
  refine ⟨results, hgives, ?_⟩
  rw [Progress.takeInput, htext]
  simp only [Progress.takeText, hparse]
  refine (completes_log _).bind (hload.bind ?_)
  rw [← ite_foldStatements hsource] at hfold
  exact hfold

/-! ## Inputs in a row -/

/-- All declarations in front of an input, from those that a run starts with on. -/
def historyAt (history : List Declaration) (earlier : List Input) : List Declaration :=
  history ++ earlier.flatMap Input.declarations

/-- What becomes of inputs in a row, if `f` says what becomes of one behind some declarations. -/
def along {α : Type} (f : List Declaration → Input → List α) (history : List Declaration)
    (inputs : List Input) : List α :=
  (withEarlier inputs).flatMap fun entry => f (historyAt history entry.1) entry.2

/-- The jobs of inputs in a row. -/
def jobsOf : List Declaration → List Input → List Job := along Input.jobs

/-- What is reported of inputs in a row. -/
def errorsOf : List Declaration → List Input → List PrecedenceError := along Input.errors

/-- Behind one more input, its declarations belong to the history. -/
theorem historyAt_cons (history : List Declaration) (i : Input) (earlier : List Input) :
    historyAt history (i :: earlier) = historyAt (history ++ i.declarations) earlier := by
  rw [historyAt, historyAt, List.flatMap_cons, List.append_assoc]

/-- Along one more input in front, all others have its declarations in front of them. -/
theorem along_cons {α : Type} (f : List Declaration → Input → List α)
    (history : List Declaration) (i : Input) (inputs : List Input) :
    along f history (i :: inputs) = f history i ++ along f (history ++ i.declarations) inputs := by
  rw [along, along, withEarlier, List.flatMap_cons, List.flatMap_map]
  simp only [historyAt_cons]
  rw [historyAt, List.flatMap_nil, List.append_nil]

/-- Behind source texts a run goes on with their results and with all of their declarations. -/
theorem takeInputs_append (parenthesize : Bool) {read : List Input}
    (hread : ∀ i ∈ read, i.parses) (hp : p.registry = holding history) (hend : p.ending = none) :
    ∃ results, List.Forall₂ (Job.Gives · parenthesize ·) (jobsOf history read) results ∧
      ∀ rest a es,
        Completes (Progress.takeInputs parenthesize
          { registry := holding (historyAt history read), results := p.results ++ results } rest)
          a es →
        Completes (p.takeInputs parenthesize (read ++ rest)) a (errorsOf history read ++ es) := by
  -- on the inputs that have been read; what comes behind them is left open, so that a refused
  -- input may follow
  induction read generalizing p history with
  | nil =>
    refine ⟨[], .nil, fun rest a es hrest => ?_⟩
    obtain ⟨registry, results, ending⟩ := p
    cases hp
    cases hend
    rw [List.append_nil, historyAt, List.flatMap_nil, List.append_nil] at hrest
    exact hrest
  | cons i read ih =>
    rw [List.forall_mem_cons] at hread
    obtain ⟨hparses, hothers⟩ := hread
    obtain ⟨source, hsource⟩ := Option.isSome_iff_exists.mp hparses
    obtain ⟨first, hfirst, hinput⟩ := takeInput_completes parenthesize hp hsource
    obtain ⟨others, hgives, hmore⟩ :=
      @ih ⟨holding (history ++ i.declarations), p.results ++ first, none⟩ _ hothers rfl rfl
    refine ⟨first ++ others, ?_, fun rest a es hrest => ?_⟩
    · rw [jobsOf, along_cons]
      exact List.rel_append hfirst hgives
    · rw [errorsOf, along_cons, List.append_assoc]
      rw [historyAt_cons, ← List.append_assoc] at hrest
      exact hinput.bind (hmore rest a es hrest)

end OperatorFold.CommandLine
