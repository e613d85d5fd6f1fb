/-! # Path names

The written form of a path name: empty components and single dots are dropped, and so is a slash at
the end; two dots stay. A name starts at the root if it begins with a slash, and exactly two slashes
at the start are kept as they are. A name with nothing left is a single dot.
-/

namespace OperatorFold.CommandLine

/-- The parts of a name between its slashes. -/
def splitAtSlashes : List Char → List (List Char)
  | [] => [[]]
  | '/' :: rest => [] :: splitAtSlashes rest
  | c :: rest => (splitAtSlashes rest).modifyHead (c :: ·)

/-- The components of a name that count. -/
def pathComponents (name : String) : List String :=
  ((splitAtSlashes name.toList).map String.ofList).filter fun part => part ≠ "" && part ≠ "."

/-- The slashes with which the written form of a name begins. -/
def pathRoot (name : String) : String :=
  match (name.toList.takeWhile (· = '/')).length with
  | 0 => ""
  | 2 => "//"
  | _ => "/"

/-- The written form of a path name. -/
def normalizePath (name : String) : String :=
  match pathRoot name ++ "/".intercalate (pathComponents name) with
  | "" => "."
  | written => written

end OperatorFold.CommandLine
