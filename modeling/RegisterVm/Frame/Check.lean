import RegisterVm.Frame.Basic

/-!
# Checking a frame before it runs

`Frame.defect?` finds the first defect of a frame: first its shape, then its
instructions in order, last its result. Within an instruction the opcode comes
first, then the number of operands, the destination, the sources from left to
right, and that a constant is loaded from the constants.
-/

namespace RegisterVm.Frame

inductive Defect where
  | sizeBelowLocals (size : Int) (count : Nat)
  | negativeArity (inputs outputs : Int)
  | notOpcode (index : Nat) (tag : OpTag)
  | operandCount (index : Nat) (op : Opcode) (count : Nat)
  | destination (index : Nat) (op : Opcode) (dst size : Int)
  | source (index : Nat) (op : Opcode) (src : Int)
  | notConstant (index : Nat) (op : Opcode) (src : Int)
  | result (ref : Int)
  deriving DecidableEq, Repr

namespace Defect

inductive Category where
  | opcode
  | operandCount
  | bounds
  | frameSize
  deriving DecidableEq, Repr

def Category.name : Category → String
  | .opcode => "invalid_opcode"
  | .operandCount => "invalid_operand_count"
  | .bounds => "index_out_of_bounds"
  | .frameSize => "invalid_frame_size"

def category : Defect → Category
  | .sizeBelowLocals .. => .frameSize
  | .negativeArity .. => .frameSize
  | .notOpcode .. => .opcode
  | .operandCount .. => .operandCount
  | .destination .. => .bounds
  | .source .. => .bounds
  | .notConstant .. => .bounds
  | .result .. => .bounds

/-- The place of the instruction at fault. -/
def index? : Defect → Option Nat
  | .notOpcode i _ => some i
  | .operandCount i _ _ => some i
  | .destination i _ _ _ => some i
  | .source i _ _ => some i
  | .notConstant i _ _ => some i
  | _ => none

def opcode? : Defect → Option Opcode
  | .operandCount _ op _ => some op
  | .destination _ op _ _ => some op
  | .source _ op _ => some op
  | .notConstant _ op _ => some op
  | _ => none

def message : Defect → String
  | .sizeBelowLocals size count =>
      s!"Frame size {size} is smaller than its {count} locals"
  | .negativeArity inputs outputs =>
      s!"Negative arity: in={inputs}, out={outputs}"
  | .notOpcode _ tag => s!"Invalid opcode type: <class '{tag.kind}'>"
  | .operandCount _ op count =>
      s!"{op.mnemonic} expects {op.operandCount} operands, got {count}"
  | .destination _ _ dst size =>
      s!"Destination register {dst} out of bounds (size {size})"
  | .source _ _ src =>
      if Operand.isConstant src then s!"Constant reference {src} out of bounds"
      else s!"Register reference {src} out of bounds"
  | .notConstant _ _ src =>
      s!"LOAD_CONSTANT source {src} is not a constant reference"
  | .result ref => s!"Result reference {ref} out of bounds"

/-- The message, with the place and the opcode of the instruction where there is
one. -/
def text (d : Defect) : String :=
  "\n".intercalate <|
    ("Frame validation error: " ++ d.message)
      :: ((d.index?.map fun i => s!"  at instruction {i}").toList
        ++ (d.opcode?.map fun op => s!"  opcode: {op.mnemonic}").toList)

end Defect

def refInBounds (f : Frame) (ref : Int) : Bool :=
  Operand.inBounds ref f.size f.constants.length

def shapeDefect? (f : Frame) : Option Defect :=
  if f.size < f.locals.length then some (.sizeBelowLocals f.size f.locals.length)
  else if f.inputs < 0 ∨ f.outputs < 0 then
    some (.negativeArity f.inputs f.outputs)
  else none

/-- The first defect among the operands of an instruction that has as many as
its opcode takes. -/
def operandDefect? (f : Frame) (index : Nat) (op : Opcode) :
    List Int → Option Defect
  | [] => none
  | dst :: sources =>
      if !Operand.registerInBounds dst f.size then
        some (.destination index op dst f.size)
      else match sources.find? (!f.refInBounds ·) with
        | some src => some (.source index op src)
        | none =>
            if op = .loadConstant then
              (sources.find? (!Operand.isConstant ·)).map
                (.notConstant index op ·)
            else none

def instructionDefect? (f : Frame) (index : Nat) (instr : Instruction) :
    Option Defect :=
  match instr.tag with
  | .opcode op =>
      if instr.args.length = op.operandCount then
        f.operandDefect? index op instr.args
      else some (.operandCount index op instr.args.length)
  | tag => some (.notOpcode index tag)

def resultDefect? (f : Frame) : Option Defect :=
  match f.result with
  | some ref => if f.refInBounds ref then none else some (.result ref)
  | none => none

def codeDefect? (f : Frame) : Option Defect :=
  f.code.zipIdx.findSome? fun (instr, i) => f.instructionDefect? i instr

/-- The first defect of a frame. -/
def defect? (f : Frame) : Option Defect :=
  f.shapeDefect?.or (f.codeDefect?.or f.resultDefect?)

/-- Passes a frame on if it has no defect, or if nobody asks. -/
def checked (validate : Bool) (f : Frame) : Except Defect Frame :=
  if validate then
    match f.defect? with
    | some d => .error d
    | none => .ok f
  else .ok f

end RegisterVm.Frame
