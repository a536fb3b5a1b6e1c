import RegisterVm.Frame.Listing
import RegisterVm.Lowering.Assembly
import RegisterVm.Machine.Step

/-!
# Programs

An expression as a program: compiled to a frame, run to the end, its value read.
A journal can be kept of what was done: an entry for the compilation, one for
the frame that came of it, one for each instruction that ran, and one for the
end.
-/

namespace RegisterVm.Program

/-! ## Compiling and evaluating -/

inductive Error where
  | lowering (e : Lowering.Error)
  | defect (d : Frame.Defect)
  | step (e : StepError)

def Error.message : Error → String
  | .lowering e => e.message
  | .defect d => d.text
  | .step e => e.message

def ofLowering {α : Type} (e : Except Lowering.Error α) : Except Error α :=
  e.mapError .lowering

def ofDefect {α : Type} (e : Except Frame.Defect α) : Except Error α :=
  e.mapError .defect

def ofFault {α : Type} (e : Except Fault α) : Except Error α :=
  e.mapError fun f => .step (.fault f)

/-- The frame of an expression, checked if `validate` says so. -/
def compile (e : Expr) (validate : Bool) : Except Error Frame := do
  let f ← ofLowering (Lowering.lower e)
  ofDefect (f.checked validate)

/-- The value of a frame: that of its result after a run to the end, nil if it
has none. -/
def evaluateFrame (f : Frame) (validate : Bool) : Except Error Value := do
  let m ← ofDefect (Machine.create f validate)
  let run := m.run
  match run.failure with
  | some err => .error (.step err)
  | none =>
      let v ← ofFault run.machine.result
      return v.getD .nil

def evaluate (e : Expr) (validate : Bool) : Except Error Value := do
  let f ← compile e validate
  evaluateFrame f validate

/-! ## The journal -/

inductive Entry where
  | compiling (text : String)
  | generated (instructions constants locals : Nat) (temporaries : Int)
  | executed (pc : Nat) (text : String)
  | halted (pc : Nat)
  deriving DecidableEq, Repr

namespace Entry

/-- Who writes the entry. -/
def source : Entry → String
  | .compiling _ => "KestrelCompiler"
  | .generated .. => "KestrelCodeGen"
  | .executed .. => "KestrelVM"
  | .halted _ => "KestrelVM"

def text : Entry → String
  | .compiling t => "compiling " ++ t
  | .generated i c l t =>
      s!"generated {i} instructions, {c} constants, {l} locals, {t} temporaries"
  | .executed pc t => Frame.place pc ++ ": " ++ t
  | .halted pc => s!"halted at pc {pc}"

def line (e : Entry) : String := "DEBUG " ++ e.source ++ ": " ++ e.text

/-- What is noted of a step. The end is noted once, when the machine comes to
it. -/
def ofStep (before : Machine) : Outcome → List Entry
  | .executed e => [.executed e.pc (e.op.render e.args)]
  | .ended => if before.status = .halted then [] else [.halted before.pc]
  | .failed _ => []

def ofFrame (f : Frame) : Entry :=
  .generated f.code.length f.constants.length f.locals.length f.temporaryCount

end Entry

/-- Exactly `n` steps, fewer only if one fails, with what is noted of them. -/
def journaledSteps : Nat → Machine → List Entry × Except StepError Machine
  | 0, m => ([], .ok m)
  | n + 1, m =>
      let (outcome, m') := m.step
      match outcome with
      | .failed err => ([], .error err)
      | _ =>
          let (entries, final) := journaledSteps n m'
          (Entry.ofStep m outcome ++ entries, final)

/-- The journal of a program that is compiled, run to the end and then stepped
`extra` times more, with its value. What was noted before an error stays. -/
def journaled (e : Expr) (extra : Nat) :
    List Entry × Except Error (Option Value) :=
  let compiling := Entry.compiling e.text
  match compile e true with
  | .error err => ([compiling], .error err)
  | .ok f =>
      let (entries, final) :=
        journaledSteps (f.code.length + 1 + extra) (Machine.start f)
      (compiling :: Entry.ofFrame f :: entries,
        match final with
        | .error err => .error (.step err)
        | .ok m => ofFault m.result)

end RegisterVm.Program
