import RegisterVm.Binary64.Basic
import RegisterVm.Binary64.Decimal
import RegisterVm.Diagnostic
import RegisterVm.Expr
import RegisterVm.Frame.Basic
import RegisterVm.Frame.Check
import RegisterVm.Frame.Listing
import RegisterVm.Instruction
import RegisterVm.Likeness.Blocks
import RegisterVm.Likeness.Suggestion
import RegisterVm.Lowering.Assembly
import RegisterVm.Lowering.Context
import RegisterVm.Lowering.Generate
import RegisterVm.Lowering.Location
import RegisterVm.Lowering.Scope
import RegisterVm.Machine.Basic
import RegisterVm.Machine.Step
import RegisterVm.Main
import RegisterVm.Operand
import RegisterVm.Program
import RegisterVm.Proofs.Abandonment
import RegisterVm.Proofs.Acceptance
import RegisterVm.Proofs.Annotation
import RegisterVm.Proofs.Assembly
import RegisterVm.Proofs.Assignment
import RegisterVm.Proofs.Atomicity
import RegisterVm.Proofs.Census
import RegisterVm.Proofs.CommonRun
import RegisterVm.Proofs.Compilation
import RegisterVm.Proofs.Correspondence
import RegisterVm.Proofs.DecimalValue
import RegisterVm.Proofs.Derivation
import RegisterVm.Proofs.Discipline
import RegisterVm.Proofs.EqualTrees
import RegisterVm.Proofs.Evaluation
import RegisterVm.Proofs.Execution
import RegisterVm.Proofs.Faithfulness
import RegisterVm.Proofs.Flattening
import RegisterVm.Proofs.Footprint
import RegisterVm.Proofs.Independence
import RegisterVm.Proofs.Inventory
import RegisterVm.Proofs.Matching
import RegisterVm.Proofs.Notification
import RegisterVm.Proofs.NumberText
import RegisterVm.Proofs.Progress
import RegisterVm.Proofs.Ranking
import RegisterVm.Proofs.Reach
import RegisterVm.Proofs.ReadBack
import RegisterVm.Proofs.Realization
import RegisterVm.Proofs.Rejection
import RegisterVm.Proofs.Renaming
import RegisterVm.Proofs.Rounding
import RegisterVm.Proofs.Safety
import RegisterVm.Proofs.Scoping
import RegisterVm.Proofs.Sequence
import RegisterVm.Proofs.SlidingWindow
import RegisterVm.Proofs.Tables
import RegisterVm.Proofs.Traversal
import RegisterVm.Proofs.Validity
import RegisterVm.Proofs.ZeroSign
import RegisterVm.Stepper.Listing
import RegisterVm.Stepper.Options
import RegisterVm.Stepper.Transcript
import RegisterVm.Text.Display
import RegisterVm.Text.Numeral
import RegisterVm.Value.Basic
import RegisterVm.Value.Coercion
import RegisterVm.Watch.Session
import RegisterVm.Watch.Window
