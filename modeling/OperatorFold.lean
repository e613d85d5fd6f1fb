import OperatorFold.Fold.Expected
import OperatorFold.Main
import OperatorFold.Proofs.Calls
import OperatorFold.Proofs.CommandLine.FailFast
import OperatorFold.Proofs.Fold.Canonical
import OperatorFold.Proofs.Fold.Chains
import OperatorFold.Proofs.Fold.ErrorStream
import OperatorFold.Proofs.Fold.Extension
import OperatorFold.Proofs.Fold.InOrder
import OperatorFold.Proofs.Fold.Levels
import OperatorFold.Proofs.Fold.Normal
import OperatorFold.Proofs.Fold.Parentheses
import OperatorFold.Proofs.Fold.PendingStack
import OperatorFold.Proofs.Fold.Reordering
import OperatorFold.Proofs.Fold.Splitting
import OperatorFold.Proofs.Fold.Standard
import OperatorFold.Proofs.Fold.Steps
import OperatorFold.Proofs.Grouping.Meeting
import OperatorFold.Proofs.Precedence.DeadEnds
import OperatorFold.Proofs.Precedence.Visits
import OperatorFold.Proofs.Source.Spelling
import OperatorFold.Proofs.Source.LineEnds
import OperatorFold.Proofs.Source.Relaid
import OperatorFold.Proofs.Source.Derivation
import OperatorFold.Proofs.Source.Places
import OperatorFold.Proofs.Source.Spans
