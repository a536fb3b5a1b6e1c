import RegisterVm.Program
import RegisterVm.Stepper.Listing
import RegisterVm.Stepper.Options
import RegisterVm.Watch.Window

/-!
# What the stepper shows

The stepper compiles a program, lists it and runs it step by step. The
transcript is all that it writes: to the reader, about errors, and as its exit
code.
-/

namespace RegisterVm.Stepper

structure Transcript where
  exitCode : Nat
  output : String
  errors : String := ""

/-- A number of the program text. -/
private def literal (n : Int) : Expr := .constant (.number (Binary64.ofInt n))

/-- The program that is stepped if no other is given. -/
def demo : Expr :=
  .block [
    .define "a" (.add (literal 2) (literal 2)),
    .define "b" (.add (literal 3) (.var "a")),
    .assign "a" (.add (.var "a") (.var "b")),
    .assign "b" (.add (.var "b") (.add (.var "a") (.var "b"))),
    .define "c" (.var "b")]

/-- How far the stepper came and what it wrote on the way. -/
structure Progress where
  written : String
  executed : Nat
  machine : Machine
  failure : Option StepError

/-- What is written after a step: its line, or a blank line and the machine. -/
def shown (compact : Bool) (e : Event) (m : Machine) : Except TagError String :=
  if compact then .ok (e.line ++ "\n")
  else m.snapshot.map fun text => "\n" ++ text ++ "\n"

/-- At most `n` steps, each of them shown. -/
def proceed (compact : Bool) : Nat → Machine → Except TagError Progress
  | 0, m => .ok ⟨"", 0, m, none⟩
  | n + 1, m =>
      match m.step with
      | (.executed e, m') => do
          let text ← shown compact e m'
          let rest ← proceed compact n m'
          return { rest with
            written := text ++ rest.written
            executed := rest.executed + 1 }
      | (.ended, m') => .ok ⟨"", 0, m', none⟩
      | (.failed err, m') => .ok ⟨"", 0, m', some err⟩

/-- Why a compiled program cannot be shown step by step. -/
inductive ShowError where
  | noListing (e : ListingError)
  | emptyLimit

def ShowError.message : ShowError → String
  | .noListing e => e.message
  | .emptyLimit => "'<' not supported between instances of 'int' and 'list'"

/-- How many steps to take: as many as are asked for, or enough to come to the
end. -/
def stepCount (f : Frame) : StepLimit → Except ShowError Nat
  | .unlimited => .ok (f.code.length + 1)
  | .atMost n => .ok n.toNat
  | .empty => .error .emptyLimit

/-- The transcript of a frame's run, after what was written before it. -/
def runTranscript (o : Options) (before : String) (f : Frame) :
    Except ShowError Transcript := do
  let code ← (listing f).mapError .noListing
  let m := Machine.start f
  let initial ← if o.compact then .ok "" else
      (m.snapshot.map (· ++ "\n")).mapError noSnapshot
  let count ← stepCount f o.steps
  let progress ← (proceed o.compact count m).mapError noSnapshot
  let output := before ++ Text.lines code ++ "\n" ++ initial ++ progress.written
  match progress.failure with
  | some err =>
      return {
        exitCode := 1
        output := output
        errors := s!"Error at step {progress.executed}: {err.message}\n" }
  | none =>
      return {
        exitCode := 0
        output := output
          ++ s!"\nExecuted {progress.executed} instructions, "
          ++ s!"state: {progress.machine.status.text}\n" }
where
  noSnapshot (e : TagError) : ShowError := .noListing (.noText e)

/-- The transcript of a program. -/
def transcript (o : Options) (program : Expr) : Except ShowError Transcript :=
  let title := s!"Program: {program.text}\n"
  match Program.compile program true with
  | .error err =>
      .ok {
        exitCode := 1
        output := title
        errors := s!"Error compiling: {err.message}\n" }
  | .ok f => runTranscript o title f

end RegisterVm.Stepper
