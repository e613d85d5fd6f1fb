import Mathlib.Data.List.TakeWhile
import OperatorFold.CommandLine.Arguments
import OperatorFold.Proofs.Reporting

/-! # One switch more

What changes when `--fail-fast` is put among the arguments. Consuming arguments comes to granting
the requests of options (`consume_option`) and placing runs of plain words (`consume_run`), and
neither looks at this switch. So it does not matter when the switch is turned on
(`consume_withFailFast`). In front of all arguments it is accepted whenever they are
(`ofArguments_failFast`), and wherever it is accepted it changes nothing but itself
(`ofArguments_of_failFast`).

There are places where it is not accepted: between a parameter and its value, and within the names
of the source files, since only the first run of plain words names them.
-/

namespace OperatorFold.CommandLine

/-! ## Classification -/

namespace Argument

/-- The argument that turns the switch on. -/
def failFast : Argument := .option (.switch .failFast) "--fail-fast" none

theorem classify_failFast : classify "--fail-fast" = .ok failFast := by
  decide +kernel

/-- In front of other arguments, one that is no separator is classified by itself. -/
theorem classifyAll_cons {text : String} (h : text ≠ "--") (rest : List String) :
    classifyAll (text :: rest) = (do
      let a ← classify text
      let others ← classifyAll rest
      pure (a :: others)) :=
  classifyAll.eq_3 text rest h

/-- In front of a separator every argument is classified by itself. -/
theorem classifyAll_append {before : List String} (h : "--" ∉ before) (rest : List String) :
    classifyAll (before ++ rest) = (do
      let first ← classifyAll before
      let others ← classifyAll rest
      pure (first ++ others)) := by
  induction before with
  | nil =>
    rw [List.nil_append, classifyAll]
    cases classifyAll rest <;> rfl
  | cons text before ih =>
    rw [List.mem_cons, not_or] at h
    rw [List.cons_append, classifyAll_cons (Ne.symm h.1), classifyAll_cons (Ne.symm h.1), ih h.2]
    simp only [bind_assoc, pure_bind, List.cons_append]

/-- The switch in front of other arguments changes nothing in what these are. -/
theorem classifyAll_cons_failFast (rest : List String) :
    classifyAll ("--fail-fast" :: rest) = (classifyAll rest).map (failFast :: ·) := by
  rw [classifyAll_cons (by decide), classify_failFast]
  cases classifyAll rest <;> rfl

end Argument

open Argument

/-! ## Requests -/

/-- The value of the parameter that a request asks for, and the arguments behind it. -/
def Request.value (r : Request) (rest : List Argument) :
    Except Refusal (Option (Parameter × String) × List Argument) :=
  match r.parameter, rest with
  | none, rest => .ok (none, rest)
  | some (p, some value), rest => .ok (some (p, value), rest)
  | some (p, none), .word value :: rest => .ok (some (p, value), rest)
  | some (p, none), _ => .error (.usage (.missingValue (.parameter p)))

namespace Settings

/-- The settings with all that a request asks for. -/
def grant (s : Settings) (r : Request) (value : Option (Parameter × String)) :
    Except Refusal Settings := do
  let s ← r.switches.foldlM turnOn s
  match value with
  | none => pure s
  | some (p, text) => s.assign p (given text)

/-- The settings with the switch turned on. -/
def withFailFast (s : Settings) : Settings := { s with failFast := true }

/-- It does not matter whether the switch comes in front of another one or behind it. -/
theorem turnOn_withFailFast (s : Settings) (switch : Switch) :
    s.withFailFast.turnOn switch = (s.turnOn switch).map withFailFast := by
  cases switch <;> rfl

/-- Nor in front of several others. -/
theorem foldlM_turnOn_withFailFast (s : Settings) (switches : List Switch) :
    switches.foldlM turnOn s.withFailFast = (switches.foldlM turnOn s).map withFailFast := by
  induction switches generalizing s with
  | nil => rfl
  | cons switch rest ih =>
    rw [List.foldlM_cons, List.foldlM_cons, turnOn_withFailFast]
    cases s.turnOn switch with
    | error e => rfl
    | ok turned => exact ih turned

/-- Nor in front of a parameter. -/
theorem assign_withFailFast (s : Settings) (p : Parameter) (value : Option String) :
    s.withFailFast.assign p value = (s.assign p value).map withFailFast := by
  cases p with
  | expression => rfl
  | declarations => rfl
  | preset =>
    cases value with
    | none => rfl
    | some name =>
      rw [assign, assign]
      cases Preset.ofText? name <;> rfl

/-- Nor in front of anything an argument may ask for. -/
theorem grant_withFailFast (s : Settings) (r : Request) (value : Option (Parameter × String)) :
    s.withFailFast.grant r value = (s.grant r value).map withFailFast := by
  rw [grant, grant, foldlM_turnOn_withFailFast]
  cases r.switches.foldlM turnOn s with
  | error e => rfl
  | ok turned =>
    cases value with
    | none => rfl
    | some entry => exact assign_withFailFast turned entry.1 _

end Settings

namespace Request

variable {r : Request} {value : Option (Parameter × String)} {rest left after : List Argument}

/-- An option takes its value from what is left. -/
theorem length_of_value (h : r.value rest = .ok (value, left)) : left.length ≤ rest.length := by
  obtain ⟨switches, parameter⟩ := r
  match parameter, rest with
  | none, _ | some (_, some _), _ =>
    cases h
    exact Nat.le_refl _
  | some (_, none), .word _ :: _ =>
    cases h
    exact Nat.le_succ _
  | some (_, none), [] | some (_, none), .separator :: _ | some (_, none), .option .. :: _
  | some (_, none), .unknown _ :: _ => cases h

/-- A switch is no value, so a request takes the same value with and without it. -/
theorem value_of_failFast (h : r.value (rest ++ failFast :: after) = .ok (value, left)) :
    ∃ others, others.length ≤ rest.length ∧ left = others ++ failFast :: after ∧
      r.value (rest ++ after) = .ok (value, others ++ after) := by
  obtain ⟨switches, parameter⟩ := r
  match parameter, rest with
  | none, rest | some (_, some _), rest =>
    cases h
    exact ⟨rest, Nat.le_refl _, rfl, rfl⟩
  | some (_, none), .word _ :: others =>
    cases h
    exact ⟨others, Nat.le_succ _, rfl, rfl⟩
  | some (_, none), [] | some (_, none), .separator :: _ | some (_, none), .option .. :: _
  | some (_, none), .unknown _ :: _ => cases h

end Request

/-! ## Consumption -/

/-- Induction along the arguments as they are consumed: an option may take some of those behind it,
and plain words are taken in runs. -/
@[elab_as_elim]
theorem arguments_induction {motive : List Argument → Prop} (nil : motive [])
    (unknown : ∀ text rest, motive rest → motive (.unknown text :: rest))
    (option : ∀ o spelling attached rest,
      (∀ left : List Argument, left.length ≤ rest.length → motive left) →
        motive (.option o spelling attached :: rest))
    (run : ∀ words left, words ≠ [] → (∀ a ∈ words, a.isPositional) →
      (∀ a ∈ left.head?, ¬a.isPositional) → motive left → motive (words ++ left))
    (arguments : List Argument) : motive arguments := by
  -- on the number of arguments, since an option takes a value off the others, and a run of words
  -- takes several of them at once
  induction hlength : arguments.length using Nat.strong_induction_on generalizing arguments with
  | _ n ih =>
    match arguments with
    | [] => exact nil
    | a :: rest =>
      have shorter : ∀ left : List Argument, left.length ≤ rest.length → motive left := by
        intro left hleft
        refine ih _ ?_ left rfl
        rw [← hlength]
        exact Nat.lt_succ_of_le hleft
      by_cases ha : a.isPositional
      · -- all words up to the next argument that is none belong to the run
        have hsplit : (a :: rest.takeWhile (·.isPositional)) ++ rest.dropWhile (·.isPositional) =
            a :: rest := congrArg (a :: ·) List.takeWhile_append_dropWhile
        rw [← hsplit]
        refine run _ _ (List.cons_ne_nil _ _) (List.forall_mem_cons.mpr ⟨ha, ?_⟩) ?_
          (shorter _ (List.dropWhile_sublist _).length_le)
        · intro b hb
          exact List.mem_takeWhile_imp hb
        · intro b hb
          have hstop := List.head?_dropWhile_not (·.isPositional) rest
          rw [Option.mem_def.mp hb] at hstop
          exact Bool.eq_false_iff.mp hstop
      · cases a with
        | word | separator => exact absurd rfl ha
        | option o spelling attached => exact option o spelling attached rest shorter
        | unknown text => exact unknown text rest (shorter rest (Nat.le_refl _))

namespace Consumed

variable {done ended : Consumed} {arguments before after words left : List Argument}

/-- Takes a run of plain words: the first one names the source files, and nothing has a use for
another. -/
def place (done : Consumed) (words : List Argument) : Consumed :=
  if done.sourcesTaken then { done with extras := done.extras ++ words.map (·.text) }
  else { done with settings := done.settings.withSources words, sourcesTaken := true }

/-- The switch turned on. -/
def withFailFast (done : Consumed) : Consumed :=
  { done with settings := done.settings.withFailFast }

/-- An option is granted what it asks for, with its value, and then the others are consumed. -/
theorem consume_option (done : Consumed) (o : Opt) (spelling : String) (attached : Option String)
    (rest : List Argument) :
    done.consume (.option o spelling attached :: rest) = (do
      let r ← (Request.ofOption o spelling attached).mapError .usage
      let taken ← r.value rest
      let settings ← done.settings.grant r taken.1
      consume { done with settings } taken.2) := by
  rw [consume]
  cases (Request.ofOption o spelling attached).mapError Refusal.usage with
  | error e => rfl
  | ok r =>
    obtain ⟨switches, parameter⟩ := r
    have hgrant := fun value (left : List Argument) =>
      bind_assoc (switches.foldlM Settings.turnOn done.settings) value
        fun settings => consume { done with settings } left
    cases parameter with
    | none => exact (hgrant pure rest).symm
    | some entry =>
      obtain ⟨p, value⟩ := entry
      cases value with
      | some text => exact (hgrant (·.assign p (Settings.given text)) rest).symm
      | none =>
        cases rest with
        | nil => rfl
        | cons a others =>
          cases a with
          | word text => exact (hgrant (·.assign p (Settings.given text)) others).symm
          | separator | option | unknown => rfl

/-- A run of plain words ends at whatever is none. -/
theorem consume_run (done : Consumed) (hwords : words ≠ []) (hall : ∀ a ∈ words, a.isPositional)
    (hstop : ∀ a ∈ left.head?, ¬a.isPositional) :
    done.consume (words ++ left) = (done.place words).consume left := by
  obtain ⟨a, rest, rfl⟩ := List.exists_cons_of_ne_nil hwords
  rw [List.forall_mem_cons] at hall
  -- the run ends where the words do, because what is left does not go on with one
  have hnone : left.takeWhile (·.isPositional) = [] ∧ left.dropWhile (·.isPositional) = left := by
    cases left with
    | nil => exact ⟨rfl, rfl⟩
    | cons b left =>
      have hb : ¬b.isPositional := hstop b rfl
      exact ⟨List.takeWhile_cons_of_neg hb, List.dropWhile_cons_of_neg hb⟩
  have hpositional : a.isPositional := hall.1
  rw [List.cons_append, consume.eq_4]
  · rw [List.takeWhile_append_of_pos hall.2, List.dropWhile_append_of_pos hall.2, hnone.1, hnone.2,
      List.append_nil]
    rfl
  · rintro text rfl
    cases hpositional
  · rintro o spelling attached rfl
    cases hpositional

theorem place_withFailFast (done : Consumed) (words : List Argument) :
    done.withFailFast.place words = (done.place words).withFailFast := by
  obtain ⟨settings, sourcesTaken, extras⟩ := done
  cases sourcesTaken <;> rfl

theorem sourcesTaken_place (done : Consumed) (words : List Argument) :
    (done.place words).sourcesTaken := by
  rw [place]
  split
  · assumption
  · rfl

/-- It makes no difference whether the switch is turned on before the arguments are consumed or
behind them. -/
theorem consume_withFailFast (done : Consumed) (arguments : List Argument) :
    done.withFailFast.consume arguments = (done.consume arguments).map withFailFast := by
  induction arguments using arguments_induction generalizing done with
  | nil =>
    rw [consume, consume]
    rfl
  | unknown text rest ih =>
    rw [consume, consume]
    exact ih { done with extras := done.extras ++ [text] }
  | option o spelling attached rest ih =>
    rw [consume_option, consume_option]
    cases (Request.ofOption o spelling attached).mapError Refusal.usage with
    | error e => rfl
    | ok r =>
      simp only [bind, Except.bind]
      cases hvalue : r.value rest with
      | error e => rfl
      | ok taken =>
        simp only [withFailFast, Settings.grant_withFailFast]
        cases done.settings.grant r taken.1 with
        | error e => rfl
        | ok turned =>
          -- the value is taken before the settings are looked at, so both are left with the same
          -- arguments
          exact ih taken.2 (Request.length_of_value hvalue) { done with settings := turned }
  | run words left hwords hall hstop ih =>
    rw [consume_run _ hwords hall hstop, consume_run _ hwords hall hstop, place_withFailFast]
    exact ih (done.place words)

/-- The switch turns itself on, and then the others are consumed. -/
theorem consume_failFast (done : Consumed) (after : List Argument) :
    done.consume (failFast :: after) = done.withFailFast.consume after := by
  rw [failFast, consume]
  rfl

/-- An option takes its value, and the arguments behind it are consumed. -/
theorem consume_option_eq_ok {o : Opt} {spelling : String} {attached : Option String}
    {rest : List Argument} :
    done.consume (.option o spelling attached :: rest) = .ok ended ↔
      ∃ r value left settings, Request.ofOption o spelling attached = .ok r ∧
        r.value rest = .ok (value, left) ∧ done.settings.grant r value = .ok settings ∧
        consume { done with settings } left = .ok ended := by
  rw [consume_option]
  constructor
  · intro h
    obtain ⟨r, hr, h⟩ := exists_of_bind_eq_ok h
    obtain ⟨⟨value, left⟩, hvalue, h⟩ := exists_of_bind_eq_ok h
    obtain ⟨settings, hgrant, h⟩ := exists_of_bind_eq_ok h
    exact ⟨r, value, left, settings, eq_ok_of_mapError hr, hvalue, hgrant, h⟩
  · rintro ⟨r, value, left, settings, hr, hvalue, hgrant, h⟩
    rw [hr]
    show (r.value rest >>= _) = _
    rw [hvalue]
    show (done.settings.grant r value >>= _) = _
    rw [hgrant]
    exact h

/-- What nothing has a use for stays so. -/
theorem extras_of_consume (h : done.consume arguments = .ok ended) :
    done.extras <+: ended.extras := by
  induction arguments using arguments_induction generalizing done with
  | nil =>
    rw [consume] at h
    cases h
    exact List.prefix_refl _
  | unknown text rest ih =>
    rw [consume] at h
    exact (List.prefix_append _ _).trans (ih h)
  | option o spelling attached rest ih =>
    obtain ⟨r, value, left, settings, -, hvalue, -, hleft⟩ := consume_option_eq_ok.mp h
    have hkept := ih left (Request.length_of_value hvalue) hleft
    exact hkept
  | run words left hwords hall hstop ih =>
    rw [consume_run _ hwords hall hstop] at h
    refine List.IsPrefix.trans ?_ (ih h)
    -- words that come too late are extras, and these are only ever appended
    rw [place]
    split
    · exact List.prefix_append _ _
    · exact List.prefix_refl _

/-- Behind the source files a plain word has no use. -/
theorem not_isPositional_of_consume (htaken : done.sourcesTaken)
    (h : done.consume arguments = .ok ended) (hended : ended.extras = []) :
    ∀ a ∈ arguments.head?, ¬a.isPositional := by
  cases arguments using arguments_induction with
  | nil =>
    intro a ha
    cases ha
  | unknown text rest =>
    intro a ha
    cases ha
    exact Bool.false_ne_true
  | option o spelling attached rest =>
    intro a ha
    cases ha
    exact Bool.false_ne_true
  | run words left hwords hall hstop =>
    -- words behind the sources would be extras, and none are left at the end
    rw [consume_run _ hwords hall hstop] at h
    have hnone := extras_of_consume h
    rw [hended, List.prefix_nil, place, if_pos htaken, List.append_eq_nil_iff,
      List.map_eq_nil_iff] at hnone
    exact absurd hnone.2 hwords

/-- Where the switch is accepted among the arguments, it has been turned on behind all others. -/
theorem consume_of_failFast
    (h : done.consume (before ++ failFast :: after) = .ok ended) (hended : ended.extras = []) :
    ∃ other, done.consume (before ++ after) = .ok other ∧ ended = other.withFailFast := by
  induction before using arguments_induction generalizing done with
  | nil =>
    rw [List.nil_append, consume_failFast, consume_withFailFast] at h
    obtain ⟨other, hother, hended⟩ := exists_of_map_eq_ok h
    exact ⟨other, hother, hended.symm⟩
  | unknown text rest ih =>
    rw [List.cons_append, consume] at h ⊢
    exact ih h
  | option o spelling attached rest ih =>
    rw [List.cons_append, consume_option_eq_ok] at h
    obtain ⟨r, value, left, settings, hr, hvalue, hgrant, hleft⟩ := h
    obtain ⟨others, hlength, rfl, hothers⟩ := Request.value_of_failFast hvalue
    obtain ⟨other, hother, hended⟩ := ih others hlength hleft
    exact ⟨other, consume_option_eq_ok.mpr ⟨r, value, _, settings, hr, hothers, hgrant, hother⟩,
      hended⟩
  | run words left hwords hall hstop ih =>
    rw [List.append_assoc] at h ⊢
    cases left with
    | cons a left =>
      have hrun : ∀ more, done.consume (words ++ (a :: left ++ more)) =
          (done.place words).consume (a :: left ++ more) :=
        fun more => consume_run done hwords hall hstop
      rw [hrun] at h ⊢
      exact ih h
    | nil =>
      have hswitch : done.consume (words ++ failFast :: after) =
          (done.place words).consume (failFast :: after) := by
        refine consume_run done hwords hall fun a ha => ?_
        cases ha
        exact Bool.false_ne_true
      rw [List.nil_append, hswitch] at h
      -- other words behind the switch would have no use
      have hnext := h
      rw [consume_failFast] at hnext
      have htaken : (done.place words).withFailFast.sourcesTaken := done.sourcesTaken_place words
      have hstop := not_isPositional_of_consume htaken hnext hended
      rw [List.nil_append, consume_run done hwords hall hstop]
      exact ih h

end Consumed

/-! ## Settings -/

namespace Settings

variable {before after arguments : List String} {s : Settings}

/-- Arguments are accepted if every one of them has a use and there is something to fold. -/
theorem ofArguments_eq_ok : ofArguments arguments = .ok s ↔
    ∃ classified ended, classifyAll arguments = .ok classified ∧
      ({} : Consumed).consume classified = .ok ended ∧ ended.extras = [] ∧
      ¬(ended.settings.sources.isEmpty && ended.settings.expressions.isEmpty) ∧
      ended.settings = s := by
  constructor
  · intro h
    obtain ⟨classified, hclassified, h⟩ := exists_of_bind_eq_ok h
    obtain ⟨⟨settings, taken, extras⟩, hended, h⟩ := exists_of_bind_eq_ok h
    cases extras with
    | cons _ _ => cases h
    | nil =>
      have hend : (if settings.sources.isEmpty && settings.expressions.isEmpty then
          .error (.usage .nothingToFold) else .ok settings) = (.ok s : Except Refusal _) := h
      split at hend
      case isTrue => cases hend
      case isFalse hsome =>
        injection hend with hend
        exact ⟨classified, _, eq_ok_of_mapError hclassified, hended, rfl, hsome, hend⟩
  · rintro ⟨classified, ⟨settings, taken, extras⟩, hclassified, hended, rfl, hsome, rfl⟩
    rw [ofArguments, hclassified]
    show (Consumed.consume {} classified >>= _) = _
    rw [hended]
    show (if settings.sources.isEmpty && settings.expressions.isEmpty then _ else _) = _
    exact if_neg hsome

/-- Arguments that are accepted stay so with the switch in front of them. -/
theorem ofArguments_failFast (h : ofArguments arguments = .ok s) :
    ofArguments ("--fail-fast" :: arguments) = .ok s.withFailFast := by
  obtain ⟨classified, ended, hclassified, hended, hextras, hsome, rfl⟩ := ofArguments_eq_ok.mp h
  refine ofArguments_eq_ok.mpr ⟨Argument.failFast :: classified, ended.withFailFast, ?_, ?_,
    hextras, hsome, rfl⟩
  · rw [classifyAll_cons_failFast, hclassified]
    rfl
  · rw [Consumed.consume_failFast, Consumed.consume_withFailFast, hended]
    rfl

/-- Where arguments are accepted with the switch somewhere in front of a separator, they ask for the
same without it, but for the switch. -/
theorem ofArguments_of_failFast (hseparator : "--" ∉ before)
    (h : ofArguments (before ++ "--fail-fast" :: after) = .ok s) :
    ∃ other, ofArguments (before ++ after) = .ok other ∧ s = other.withFailFast := by
  obtain ⟨classified, ended, hclassified, hended, hextras, hsome, rfl⟩ := ofArguments_eq_ok.mp h
  -- in front of the separator every argument is classified by itself, so the switch can be taken
  -- out
  rw [classifyAll_append hseparator] at hclassified
  obtain ⟨first, hfirst, hclassified⟩ := exists_of_bind_eq_ok hclassified
  obtain ⟨others, hothers, hclassified⟩ := exists_of_bind_eq_ok hclassified
  rw [classifyAll_cons_failFast] at hothers
  obtain ⟨rest, hrest, rfl⟩ := exists_of_map_eq_ok hothers
  cases hclassified
  obtain ⟨other, hother, rfl⟩ := Consumed.consume_of_failFast hended hextras
  refine ⟨other.settings, ?_, rfl⟩
  refine ofArguments_eq_ok.mpr ⟨first ++ rest, other, ?_, hother, hextras, hsome, rfl⟩
  rw [classifyAll_append hseparator, hfirst, hrest]
  rfl

end Settings

end OperatorFold.CommandLine
