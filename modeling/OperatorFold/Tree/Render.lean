import OperatorFold.Tree.Fault

/-! # Source form

Two ways to write an expression back as text. `Node.render` writes what stands in the tree, so a
sequence and what it folds to have the same text. `Node.renderGrouped` also puts every folded
operation in parentheses, and drops those that the source already had around one. Files and bare
nodes have no source form.
-/

namespace OperatorFold.Node

/-- The name of a node in the place of an operator. -/
def operatorName : Node → Except Fault String
  | operator use => .ok use.name
  | n => .error (.notAnOperator n.kindName)

mutual

/-- The text of a node as it stands. -/
def render : Node → Except Fault String
  | name ident _ => .ok ident
  | integer text _ => .ok text
  | operator use => .ok use.name
  | paren inner _ => do
    let text ← render inner
    pure s!"({text})"
  | sequence elements _ => do
    let texts ← renderAll elements
    pure (" ".intercalate texts)
  | binary left op right _ => do
    let l ← render left
    let o ← op.operatorName
    let r ← render right
    pure s!"{l} {o} {r}"
  | statement expr _ => render expr
  | n@(sourceFile ..) => .error (.cannotRender n.kindName)
  | n@bare => .error (.cannotRender n.kindName)

/-- The texts of some nodes. -/
def renderAll : List Node → Except Fault (List String)
  | [] => .ok []
  | n :: rest => do
    let text ← render n
    let texts ← renderAll rest
    pure (text :: texts)

end

mutual

/-- The text of a node with every folded operation in parentheses. -/
def renderGrouped : Node → Except Fault String
  | binary left op right _ => do
    let l ← renderGrouped left
    let o ← op.operatorName
    let r ← renderGrouped right
    pure s!"({l} {o} {r})"
  | paren inner _ => do
    let text ← renderGrouped inner
    match inner with
    | binary .. => pure text
    | _ => pure s!"({text})"
  | sequence elements _ => do
    let texts ← renderGroupedAll elements
    pure (" ".intercalate texts)
  | statement expr _ => renderGrouped expr
  | n => render n

/-- The texts of some nodes with every folded operation in parentheses. -/
def renderGroupedAll : List Node → Except Fault (List String)
  | [] => .ok []
  | n :: rest => do
    let text ← renderGrouped n
    let texts ← renderGroupedAll rest
    pure (text :: texts)

end

end OperatorFold.Node
