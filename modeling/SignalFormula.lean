import SignalFormula.Main
import SignalFormula.Noise.Saved
import SignalFormula.Session
import SignalFormula.Proofs.OperatorTree
import SignalFormula.Proofs.Assembly
import SignalFormula.Proofs.Execution
import SignalFormula.Proofs.Meaning
import SignalFormula.Proofs.StackSafety
import SignalFormula.Proofs.Words
import SignalFormula.Proofs.Recompile
import SignalFormula.Proofs.Number.Legible
import SignalFormula.Proofs.Infix.Arrange
import SignalFormula.Proofs.Infix.Scan
import SignalFormula.Proofs.Infix.Segmentation
import SignalFormula.Proofs.Infix.Translation
import SignalFormula.Proofs.Infix.Notations
import SignalFormula.Proofs.Infix.Brackets
import SignalFormula.Proofs.Infix.Unopened
import SignalFormula.Proofs.Infix.Matching
import SignalFormula.Proofs.Infix.Emission
import SignalFormula.Proofs.Infix.Loose
import SignalFormula.Proofs.Infix.Unfinished
import SignalFormula.Proofs.Infix.Tally
import SignalFormula.Proofs.Infix.Acceptance
import SignalFormula.Proofs.Infix.Substitution
import SignalFormula.Proofs.Binding
import SignalFormula.Proofs.Draws
import SignalFormula.Proofs.History
import SignalFormula.Proofs.Verdict
import SignalFormula.Proofs.Outcome
import SignalFormula.Proofs.Number.Range
import SignalFormula.Proofs.Precision
import SignalFormula.Proofs.Noise.Cycle
import SignalFormula.Proofs.Period
import SignalFormula.Proofs.Catalog
import SignalFormula.Proofs.Result
import SignalFormula.Proofs.Json.RoundTrip
import SignalFormula.Proofs.Json.Normal
import SignalFormula.Proofs.Spec.Fields
import SignalFormula.Proofs.Spec.Shape
import SignalFormula.Proofs.Spec.Format
import SignalFormula.Proofs.Spec.Encoding
import SignalFormula.Proofs.Text.Bytes
import SignalFormula.Proofs.Spec.Selection
import SignalFormula.Proofs.Json.Whole
import SignalFormula.Proofs.Spec.Readers
import SignalFormula.Proofs.Cli.Parts
import SignalFormula.Proofs.Cli.Sources
import SignalFormula.Proofs.Cli.Safety
import SignalFormula.Proofs.Cli.Sections
import SignalFormula.Proofs.Number.Literals
import SignalFormula.Proofs.Number.Fewest
import SignalFormula.Proofs.Number.Significant
import SignalFormula.Proofs.Listing
