import OperatorFold.Log
import OperatorFold.Precedence.Error
import OperatorFold.Tree.Fault

/-! # Reporting

Loading, comparing and folding report errors and go on. How long they may go on is decided by
whoever starts them: a limit on the number of errors ends a run at the error that reaches it.
Without a limit all errors are collected, and with the limit one the run fails at the first. Either
way the journal holds what was reported and logged up to the end of the run.
-/

namespace OperatorFold

/-- What a run has reported and logged so far, in order. -/
structure Journal where
  errors : List PrecedenceError := []
  log : List LogEvent := []
deriving Inhabited

/-- Why a run ended before its result: an error that reached the limit, or a fault. -/
inductive Halt where
  | rejected (e : PrecedenceError)
  | fault (f : Fault)
deriving DecidableEq, Inhabited

/-- The number of errors at which a run ends, if there is one. -/
abbrev Limit := Option Nat

/-- Computations that report errors. -/
def Reporting (α : Type) : Type := Limit → Journal → Except Halt α × Journal

namespace Reporting

variable {α β : Type}

/-- Ends with a value and reports nothing. -/
protected def pure (a : α) : Reporting α := fun _ journal => (.ok a, journal)

/-- Goes on with the result of a first computation, unless that one has halted. -/
protected def bind (x : Reporting α) (f : α → Reporting β) : Reporting β := fun limit journal =>
  match x limit journal with
  | (.ok a, journal) => f a limit journal
  | (.error h, journal) => (.error h, journal)

instance : Monad Reporting where
  pure := Reporting.pure
  bind := Reporting.bind

/-- Ends without a result. -/
def halt (h : Halt) : Reporting α := fun _ journal => (.error h, journal)

/-- Reports an error. The run goes on unless the error is the one that reaches the limit. -/
def report (e : PrecedenceError) : Reporting Unit := fun limit journal =>
  let errors := journal.errors ++ [e]
  let journal := { journal with errors }
  if limit.any (· ≤ errors.length) then (.error (.rejected e), journal) else (.ok (), journal)

/-- Logs an event. -/
def log (event : LogEvent) : Reporting Unit := fun _ journal =>
  (.ok (), { journal with log := journal.log ++ [event] })

/-- The number of errors reported so far. -/
def errorCount : Reporting Nat := fun _ journal => (.ok journal.errors.length, journal)

/-- Hands an early end to the caller as a value. -/
def attempt (x : Reporting α) : Reporting (Except Halt α) := fun limit journal =>
  let (result, journal) := x limit journal
  (.ok result, journal)

/-- The value of a computation that may fail, with a fault as the early end. -/
def ofExcept : Except Fault α → Reporting α
  | .ok a => pure a
  | .error f => halt (.fault f)

/-- Reports errors one after another. -/
def reportAll : List PrecedenceError → Reporting Unit
  | [] => pure ()
  | e :: rest => do
    report e
    reportAll rest

/-- Runs a computation with an empty journal. -/
def run (x : Reporting α) (limit : Limit) : Except Halt α × Journal := x limit {}

end Reporting

/-! ## The two ways to call -/

/-- A result together with every error reported on the way to it. -/
structure Outcome (α : Type) where
  value : α
  errors : List PrecedenceError := []
deriving Inhabited

namespace Outcome

variable {α : Type}

/-- No error was reported. -/
def ok (o : Outcome α) : Bool := o.errors.isEmpty

/-- The value, unless an error was reported: then the first one. -/
def unwrap (o : Outcome α) : Except PrecedenceError α :=
  match o.errors with
  | [] => .ok o.value
  | e :: _ => .error e

end Outcome

namespace Reporting

variable {α : Type}

/-- Runs to the end and collects all errors; only a halt prevents a result. -/
def collect (x : Reporting α) : Except Halt (Outcome α) :=
  match x.run none with
  | (.ok value, journal) => .ok { value, errors := journal.errors }
  | (.error h, _) => .error h

/-- Runs up to the first error. -/
def failFast (x : Reporting α) : Except Halt α := (x.run (some 1)).1

end Reporting

end OperatorFold
