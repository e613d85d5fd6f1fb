import OperatorFold.Precedence.Registry
import OperatorFold.Precedence.Standard
import OperatorFold.Reporting

/-! # Loading declarations

Loading records the declarations of a list of items one after another and passes over everything
else. A duplicate is logged and reported, and the load goes on with the next item. Where the report
ends the run, the declarations in front of the duplicate have been recorded.
-/

namespace OperatorFold

/-- The registry after a load and, if the load ended early, the reason. -/
structure Loaded where
  registry : Registry
  ended : Option Halt := none
deriving Inhabited

namespace Registry

/-- Records one item. The flag tells whether the registry has grown. -/
def loadItem (r : Registry) : Item Node → Reporting (Registry × Bool × Option PrecedenceError)
  | .declaration (.group g) =>
    match r.recordGroup g with
    | (r, none) => pure (r, true, none)
    | (r, some existing) => do
      .log (.duplicateGroup g.name)
      pure (r, false, some (.groupAlreadyExists existing g))
  | .declaration (.operator op) =>
    match r.recordOperator op with
    | (r, none) => pure (r, true, none)
    | (r, some existing) => do
      .log (.duplicateOperator op.fixity op.name)
      pure (r, false, some (.operatorAlreadyExists existing op))
  | .node _ => pure (r, false, none)

/-- Loads items, after `added` declarations have been recorded. -/
def loadFrom (r : Registry) (added : Nat) : List (Item Node) → Reporting Loaded
  | [] => do
    .log (.loaded added r.groups.length r.operators.length)
    pure { registry := r }
  | item :: rest => do
    let (r, grown, duplicate) ← r.loadItem item
    match duplicate with
    | none => loadFrom r (if grown then added + 1 else added) rest
    | some e =>
      match ← (Reporting.report e).attempt with
      | .ok () => loadFrom r added rest
      | .error h => pure { registry := r, ended := some h }

/-- Loads the declarations among some items. -/
def load (r : Registry) (items : List (Item Node)) : Reporting Loaded := r.loadFrom 0 items

/-- The registry of trusted declarations; a duplicate among them ends the run. -/
def ofDeclarations (items : List (Item Node)) : Reporting Registry := do
  let loaded ← empty.load items
  match loaded.ended with
  | none => pure loaded.registry
  | some h => .halt h

end Registry

/-- The registry of a ready-made table. The empty one is there without a load. -/
def Preset.registry : Preset → Reporting Registry
  | .none => pure .empty
  | p => Registry.ofDeclarations (p.declarations.map .declaration)

end OperatorFold
