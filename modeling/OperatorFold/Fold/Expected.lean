import OperatorFold.Fold.Tree
import OperatorFold.Source.ParseError
import OperatorFold.Tree.Explicit
import OperatorFold.Tree.Search

/-! # Spelling out a fold

A fold can be stated by a second text: the same expression with every operation in parentheses. The
text folds as spelled if the tree that its fold gives is the one that the parentheses spell, spans
apart, and no sequence is left in either.
-/

namespace OperatorFold

/-- Why the fold of a text has no result. -/
inductive TextError where
  | expression (e : Source.ExpressionError)
  | halted (h : Halt)
deriving DecidableEq, Inhabited

/-- The tree that a fully parenthesized text spells. -/
def spelledTree (text : String) : Except TextError Node := do
  let parsed ← (Source.parseExpression text none).mapError .expression
  let spelled ← parsed.explicitGroups.mapError (.halted <| .fault ·)
  pure spelled.node

namespace Registry

/-- The fold of an expression's text, up to the first error. -/
def foldText (r : Registry) (text : String) : Except TextError Node := do
  let parsed ← (Source.parseExpression text none).mapError .expression
  let folded ← (r.foldTree parsed).failFast.mapError .halted
  pure folded.node

/-- Whether a text folds as another text spells it. -/
def foldsAs (r : Registry) (text spelled : String) : Except TextError Bool := do
  let folded ← r.foldText text
  if folded.containsSequence then pure false
  else
    let expected ← spelledTree spelled
    pure (!expected.containsSequence && folded.alike expected)

end Registry

end OperatorFold
