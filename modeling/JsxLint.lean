import JsxLint.Command.Execution
import JsxLint.Concrete.Listing
import JsxLint.Main
import JsxLint.Proofs.Printing.RoundTrip
import JsxLint.Proofs.Reading.Names
import JsxLint.Proofs.Analysis.Printing
import JsxLint.Proofs.Printing.Editing
import JsxLint.Proofs.Rule.Altered
import JsxLint.Proofs.Rule.Detection
import JsxLint.Proofs.Analysis.Accounts
import JsxLint.Proofs.Analysis.Failures
import JsxLint.Proofs.Analysis.Isolation
import JsxLint.Proofs.Scope.Books
import JsxLint.Proofs.Scope.Ownership
import JsxLint.Proofs.Analysis.Convergence
import JsxLint.Proofs.Analysis.SecondRun
import JsxLint.Proofs.Rule.Settled
import JsxLint.Proofs.Run.Shapes
import JsxLint.Proofs.Report.Totals
import JsxLint.Proofs.Run.Saving
import JsxLint.Proofs.Run.ExitStatus
import JsxLint.Proofs.Run.Pool
import JsxLint.Proofs.Scan.Finding
import JsxLint.Proofs.Run.Interruption
import JsxLint.Proofs.Run.Frame
import JsxLint.Proofs.Workspace.Conflicts
import JsxLint.Proofs.Analysis.KeyParameter
import JsxLint.Proofs.Printing.Collapse
import JsxLint.Proofs.Analysis.Exports
import JsxLint.Proofs.Printing.Renaming
import JsxLint.Proofs.Workspace.Hoisting
import JsxLint.Proofs.Printing.Attributes
import JsxLint.Proofs.Syntax.Sites
import JsxLint.Proofs.Rule.Effects
import JsxLint.Proofs.Rule.Survival
import JsxLint.Proofs.Rule.Braces
import JsxLint.Proofs.Analysis.Edits
import JsxLint.Proofs.Analysis.AttributeNames
import JsxLint.Proofs.Analysis.EmptyContent
import JsxLint.Proofs.Rule.Lasting
import JsxLint.Proofs.Analysis.Persistence
import JsxLint.Proofs.Analysis.Unresolved
import JsxLint.Proofs.Scan.Obstacles
import JsxLint.Proofs.Run.Reporting
import JsxLint.Proofs.Analysis.Links
import JsxLint.Proofs.Analysis.Keys
import JsxLint.Proofs.Reading.Faults
import JsxLint.Proofs.Analysis.Callbacks
