import RegisterVm.Diagnostic
import RegisterVm.Frame.Check
import RegisterVm.Frame.Listing

/-!
# The register machine

A machine runs one frame. Its state is the register file, the place of the next
instruction and whether it is running, has come to the end, or has failed for
good. Registers are read and written by index and constants by their references,
both within the bounds that the frame declares.
-/

namespace RegisterVm

inductive Status where
  | running
  | halted
  | faulted
  deriving DecidableEq, Repr

def Status.text : Status → String
  | .running => "running"
  | .halted => "halted"
  | .faulted => "faulted"

structure Machine where
  frame : Frame
  registers : List Value
  pc : Nat := 0
  status : Status := .running
  deriving DecidableEq, Repr

/-! ## Faults -/

/-- Why an access or an instruction fails. -/
inductive Fault where
  | noRegister (index size : Int)
  | noConstant (ref : Int) (count : Nat)
  | notNumber (ref : Int) (value : Value)
  | unimplemented (tag : OpTag)
  | malformed (pc : Nat) (op : Opcode) (args : List Int)
  | afterFault
  deriving DecidableEq, Repr

namespace Fault

def family : Fault → Diagnostic.Family
  | .notNumber .. => .type
  | _ => .runtime

def diagnostic : Fault → Diagnostic
  | .noRegister index size =>
      { message := s!"Invalid register index {index}"
        expected := s!"0 <= index < {size}"
        received := toString index }
  | .noConstant ref count =>
      { message := s!"Invalid constant index {ref}"
        expected := s!"-{count} <= reference <= -1"
        received := toString ref }
  | .notNumber ref value =>
      { message := s!"Expected a number, got {value.typeName}"
        context := s!"Operand {Operand.text ref} holds {value.text}"
        expected := "number"
        received := value.typeName }
  | .unimplemented tag =>
      { message := s!"Unimplemented opcode: {tag.text}" }
  | .malformed pc op args =>
      { message := s!"Malformed instruction at {pc}: {op.render args}"
        expected := s!"{op.operandCount} operands"
        received := s!"{args.length} operands" }
  | .afterFault =>
      { message := "Cannot step a faulted VM"
        suggestion := "Create a new VM for the frame after a runtime error" }

end Fault

namespace Machine

/-- A fresh machine: all registers are nil. A negative size gives no
registers. -/
def start (f : Frame) : Machine where
  frame := f
  registers := List.replicate f.size.toNat .nil

/-- A fresh machine for a frame that was checked first, if `validate` says
so. -/
def create (f : Frame) (validate : Bool) : Except Frame.Defect Machine :=
  (f.checked validate).map start

/-! ## Registers and constants -/

def register (m : Machine) (index : Int) : Except Fault Value :=
  if Operand.registerInBounds index m.frame.size then
    .ok (m.registers.getD index.toNat .nil)
  else .error (.noRegister index m.frame.size)

def setRegister (m : Machine) (index : Int) (v : Value) :
    Except Fault Machine :=
  if Operand.registerInBounds index m.frame.size then
    .ok { m with registers := m.registers.set index.toNat v }
  else .error (.noRegister index m.frame.size)

def constant (m : Machine) (ref : Int) : Except Fault Value :=
  if Operand.constantInBounds ref m.frame.constants.length then
    .ok (m.frame.constants.getD (Operand.constantIndex ref).toNat .nil)
  else .error (.noConstant ref m.frame.constants.length)

/-- The value that an operand stands for. -/
def value (m : Machine) (ref : Int) : Except Fault Value :=
  if Operand.isConstant ref then m.constant ref else m.register ref

def number (m : Machine) (ref : Int) : Except Fault Binary64 := do
  match ← m.value ref with
  | .number x => .ok x
  | v => .error (.notNumber ref v)

/-- The value of the frame's result operand, if the frame has one. -/
def result (m : Machine) : Except Fault (Option Value) :=
  match m.frame.result with
  | some ref => (m.value ref).map some
  | none => .ok none

/-! ## Snapshots

A machine between two instructions as text: constants, instructions with a mark
at the next one, and registers with their names. -/

def codeLine (m : Machine) (instr : Instruction) (i : Nat) :
    Except TagError String := do
  let text ← instr.text
  let mark := if i = m.pc then ">" else " "
  return s!"{mark} {Frame.place i}: {text}"

def snapshot (m : Machine) : Except TagError String := do
  let code ← m.frame.code.zipIdx.mapM fun (instr, i) => m.codeLine instr i
  return Text.lines <|
    [s!"State: {m.status.text}, pc: {m.pc}", "Constants:"]
      ++ Frame.enumerate (fun v i => s!"  k{i}: {v.text}") m.frame.constants
      ++ "Instructions:" :: code
      ++ "Registers:" ::
        Frame.enumerate (fun v i => s!"  r{i} {m.frame.nameAt i}: {v.text}")
          m.registers

/-- The machine in one line. -/
def summary (m : Machine) : String :=
  s!"KestrelVM(state={m.status.text}, pc={m.pc}, size={m.registers.length})"

end Machine

end RegisterVm
