import OperatorFold.Precedence.Basic

/-! # Log events

What the program says about its own progress. Every event is of the debug level; it comes from one
of three loggers, and its text is all that most records carry.
-/

namespace OperatorFold

/-- How grave a record is. -/
inductive LogLevel where
  | debug
  | warning
deriving DecidableEq, Inhabited

namespace LogLevel

/-- The number that stands for a level: the graver, the higher. -/
def number : LogLevel → Nat
  | debug => 10
  | warning => 30

/-- The name of a level in records. -/
def name : LogLevel → String
  | debug => "debug"
  | warning => "warning"

end LogLevel

/-- An event worth a log record. -/
inductive LogEvent where
  /-- A declaration of a taken group was passed over. -/
  | duplicateGroup (name : String)
  /-- A declaration of a taken operator was passed over. -/
  | duplicateOperator (fixity : Fixity) (name : String)
  /-- A load has ended: how many declarations it added and how many there are now. -/
  | loaded (added groups operators : Nat)
  /-- A sequence has been folded. -/
  | folded (operators errors : Nat)
  /-- The command line has read an input. -/
  | parsed (file : String) (items : Nat)
deriving DecidableEq, Inhabited

namespace LogEvent

/-- The name of the logger an event comes from. -/
def logger : LogEvent → String
  | duplicateGroup .. | duplicateOperator .. | loaded .. => "opprec.loader"
  | folded .. => "opprec.folding"
  | parsed .. => "opprec.cli"

/-- The level of an event. -/
def level : LogEvent → LogLevel
  | _ => .debug

/-- The text of an event. -/
def message : LogEvent → String
  | duplicateGroup name => s!"duplicate precedence group {name} skipped"
  | duplicateOperator fixity name => s!"duplicate {fixity.text} operator {name} skipped"
  | loaded added groups operators =>
    s!"loaded {added} declarations ({groups} groups, {operators} operators total)"
  | folded operators errors => s!"folded sequence of {operators} operators, {errors} errors"
  | parsed .. => "source parsed"

end LogEvent

end OperatorFold
