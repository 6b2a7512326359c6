import Reckoner.Expr.Grammar
import Reckoner.Main
import Reckoner.Proofs.Number.WholeNumber
import Reckoner.Proofs.Parsing.ViablePrefix
import Reckoner.Proofs.Scanning.Cut
import Reckoner.Scope.Command
import Reckoner.Proofs.Printing.RoundTrip
import Reckoner.Proofs.Evaluation.Faults
import Reckoner.Proofs.Scope.Chain
import Reckoner.Proofs.Evaluation.FirstUnbound
import Reckoner.Proofs.Parsing.Joining
import Reckoner.Proofs.Session.ReadLoop
import Reckoner.Proofs.Session.Agreement
import Reckoner.Proofs.Scope.Independence
import Reckoner.Proofs.Session.Truncation
import Reckoner.Proofs.Session.WholeFile
import Reckoner.Proofs.Position.Counting
import Reckoner.Proofs.Scanning.Findings
import Reckoner.Proofs.Scanning.Placement
import Reckoner.Proofs.Scanning.Resumption
import Reckoner.Proofs.Parsing.SourceErrors
import Reckoner.Proofs.Scanning.Splitting
import Reckoner.Proofs.Scope.Writing
import Reckoner.Proofs.Session.FirstFailure
import Reckoner.Proofs.Evaluation.Leaves
import Reckoner.Proofs.Evaluation.Substitution
import Reckoner.Proofs.Evaluation.NullValue
import Reckoner.Proofs.Scope.Ancestry
import Reckoner.Proofs.Evaluation.Steps
import Reckoner.Proofs.Session.Log
import Reckoner.Proofs.Parsing.Grafting
import Reckoner.Proofs.Printing.WorkStack
import Reckoner.Proofs.Parsing.Descent
import Reckoner.Proofs.Scanning.ReadAhead
