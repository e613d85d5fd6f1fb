import OperatorFold.Precedence.Basic

/-! # The registry

All declared groups and operators. The registry only grows: the first declaration under a name, or
under a name and fixity, stays, and later ones change nothing. Groups and operators keep the order
in which they came.

Besides the declarations themselves the registry keeps two indexes that lead from a name to the
groups that place themselves above or below it, so that relations can be followed from either end.
-/

namespace OperatorFold

/-- For each name the groups that have a relation to it, a group once for each such relation. -/
abbrev RelationIndex := List (String × List PrecedenceGroup)

namespace RelationIndex

/-- The groups kept under a name. -/
def get (index : RelationIndex) (name : String) : List PrecedenceGroup :=
  match index.find? (·.1 = name) with
  | some (_, groups) => groups
  | none => []

/-- The index with one more group under a name, behind those already there. -/
def add : RelationIndex → String → PrecedenceGroup → RelationIndex
  | [], name, g => [(name, [g])]
  | (n, groups) :: rest, name, g =>
    if n = name then (n, groups ++ [g]) :: rest else (n, groups) :: add rest name g

/-- The index with a group under the target of each of its relations of one kind. -/
def addRelations (index : RelationIndex) (kind : RelationKind) (g : PrecedenceGroup) :
    RelationIndex :=
  (g.relationsOf kind).foldl (fun index r => add index r.target g) index

end RelationIndex

/-- The declared groups and operators. -/
structure Registry where
  groups : List PrecedenceGroup := []
  operators : List Operator := []
  higherThanIndex : RelationIndex := []
  lowerThanIndex : RelationIndex := []
deriving Inhabited

namespace Registry

/-- The registry without any declaration. -/
def empty : Registry := {}

/-- The group of a name. -/
def group? (r : Registry) (name : String) : Option PrecedenceGroup :=
  r.groups.find? (·.name = name)

/-- The operator of a name and fixity. -/
def operator? (r : Registry) (name : String) (fixity : Fixity) : Option Operator :=
  r.operators.find? (·.key = (name, fixity))

/-- The groups that have a relation of the given kind to a name, in the order in which they came. -/
def relatedTo (r : Registry) (kind : RelationKind) (name : String) : List PrecedenceGroup :=
  match kind with
  | .higherThan => r.higherThanIndex.get name
  | .lowerThan => r.lowerThanIndex.get name

/-- Whether a group of that name is declared. -/
def contains (r : Registry) (name : String) : Bool := (r.group? name).isSome

/-- Adds a group, unless its name is taken: then the registry stays as it is and the group that has
the name is handed back. -/
def recordGroup (r : Registry) (g : PrecedenceGroup) : Registry × Option PrecedenceGroup :=
  match r.group? g.name with
  | some existing => (r, some existing)
  | none =>
    ({ r with
        groups := r.groups ++ [g]
        higherThanIndex := r.higherThanIndex.addRelations .higherThan g
        lowerThanIndex := r.lowerThanIndex.addRelations .lowerThan g }, none)

/-- Adds an operator, unless its name is taken for its fixity: then the registry stays as it is and
the operator that has the name is handed back. -/
def recordOperator (r : Registry) (op : Operator) : Registry × Option Operator :=
  match r.operator? op.name op.fixity with
  | some existing => (r, some existing)
  | none => ({ r with operators := r.operators ++ [op] }, none)

end Registry

end OperatorFold
