/-! # Source spans

A span says where a construct stands in a source text: the file, and the line and column of its
first character and of the character just past its last one. Each part may be unknown on its own.
Spans locate messages; they never take part in the comparison of trees, declarations or errors.
-/

namespace OperatorFold

/-- A location in a source text; the span without any part is the unknown one. -/
structure Span where
  file : Option String := none
  line : Option Int := none
  column : Option Int := none
  endLine : Option Int := none
  endColumn : Option Int := none
deriving DecidableEq, Inhabited

/-- A file name that is empty counts as absent. -/
def nonEmptyName (name : Option String) : Option String :=
  name.filter (· ≠ "")

namespace Span

/-- The span of a construct that was not read from any text. -/
def unknown : Span := {}

/-- A span is known as soon as it has a line. -/
def isKnown (s : Span) : Bool := s.line.isSome

/-- The text of a span: the file, then the line if there is one, then the column if there is a line
to count it on. -/
def text (s : Span) : String :=
  let file := (nonEmptyName s.file).getD "<input>"
  match s.line, s.column with
  | none, _ => file
  | some line, none => s!"{file}:{line}"
  | some line, some column => s!"{file}:{line}:{column}"

/-- The span from the start of `first` to the end of `last`, in the given file. -/
def cover (file : Option String) (first last : Span) : Span where
  file := file
  line := first.line
  column := first.column
  endLine := last.endLine
  endColumn := last.endColumn

end Span

/-- A location as some front end hands it over: the parts a span has, and a second place in which
a file name may stand. -/
structure Location where
  file : Option String := none
  filename : Option String := none
  line : Option Int := none
  column : Option Int := none
  endLine : Option Int := none
  endColumn : Option Int := none
deriving DecidableEq, Inhabited

/-- What may be known of the place of a construct: nothing, a span, or a front end's location. -/
inductive Place where
  | nowhere
  | span (s : Span)
  | location (loc : Location)
deriving DecidableEq, Inhabited

/-- The span of a front end's location. A file given by the caller comes first, then the two names
of the location, and an empty name is passed over. -/
def Span.ofLocation (loc : Location) (file : Option String) : Span where
  file := nonEmptyName file <|> nonEmptyName loc.file <|> nonEmptyName loc.filename
  line := loc.line
  column := loc.column
  endLine := loc.endLine
  endColumn := loc.endColumn

/-- The span of a place. A span is taken as it is; where nothing is known, the file still is. -/
def Span.ofPlace (file : Option String) : Place → Span
  | .nowhere => { file }
  | .span s => s
  | .location loc => .ofLocation loc file

end OperatorFold
