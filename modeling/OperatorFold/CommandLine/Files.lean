import OperatorFold.Text.Lines
import OperatorFold.Text.Quoted

/-! # Files

What a program finds under the name of a file: a text, bytes that are no text, or nothing to read.
-/

namespace OperatorFold.CommandLine

/-- Why a file cannot be read, with the number of the cause where it is none of the usual ones. -/
inductive FileError where
  | missing
  | notADirectory
  | isADirectory
  | other (number : Nat) (cause : String)
deriving DecidableEq, Inhabited

/-- The number of a cause. -/
def FileError.number : FileError → Nat
  | missing => 2
  | notADirectory => 20
  | isADirectory => 21
  | other number _ => number

/-- The words for a cause. -/
def FileError.cause : FileError → String
  | missing => "No such file or directory"
  | notADirectory => "Not a directory"
  | isADirectory => "Is a directory"
  | other _ cause => cause

/-- The message for a file that cannot be read. -/
def FileError.message (e : FileError) (path : String) : String :=
  s!"[Errno {e.number}] {e.cause}: {Text.quoted path}"

/-- What stands under the name of a file. -/
inductive FileContent where
  | text (s : String)
  | undecodable
  | unreadable (e : FileError)
deriving DecidableEq, Inhabited

/-- The content of a file of these bytes. They are a text if they are UTF-8; each kind of line end
in it is read as a newline. -/
def FileContent.ofBytes (bytes : ByteArray) : FileContent :=
  match String.fromUTF8? bytes with
  | some s => .text (String.ofList (Text.unifyNewlines s.toList))
  | none => .undecodable

/-- The files that a program can see, by the written form of their names. -/
abbrev Files := String → FileContent

end OperatorFold.CommandLine
