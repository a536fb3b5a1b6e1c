import RegisterVm.Text.Display

/-!
# Instructions

An opcode and its operands. The opcode field of an instruction can also hold a
number or a word that is no opcode; such an instruction has neither text nor
operand count, but it can be shown field by field.
-/

namespace RegisterVm

inductive Opcode where
  | move
  | loadConstant
  | add
  deriving DecidableEq, Repr

namespace Opcode

/-- All opcodes, in the order of their numbers. -/
def all : List Opcode := [.move, .loadConstant, .add]

def mnemonic : Opcode → String
  | .move => "MOVE"
  | .loadConstant => "LOAD_CONSTANT"
  | .add => "ADD"

def number : Opcode → Int
  | .move => 1
  | .loadConstant => 2
  | .add => 10

def operandCount : Opcode → Nat
  | .move => 2
  | .loadConstant => 2
  | .add => 3

def ofNumber? (n : Int) : Option Opcode := all.find? (·.number == n)

def ofMnemonic? (s : String) : Option Opcode := all.find? (·.mnemonic == s)

/-- An opcode with its operands, as listings show it. -/
def render (op : Opcode) (args : List Int) : String :=
  if args.isEmpty then op.mnemonic
  else op.mnemonic ++ " " ++ ", ".intercalate (args.map toString)

end Opcode

/-- Why a number or a mnemonic names no opcode. -/
inductive OpcodeError where
  | noSuchNumber (n : Int)
  | noSuchMnemonic (s : String)

def OpcodeError.message : OpcodeError → String
  | .noSuchNumber n => s!"{n} is not a valid Opcode"
  | .noSuchMnemonic s => Text.quoted s

namespace Opcode

def ofNumber (n : Int) : Except OpcodeError Opcode :=
  match ofNumber? n with
  | some op => .ok op
  | none => .error (.noSuchNumber n)

def ofMnemonic (s : String) : Except OpcodeError Opcode :=
  match ofMnemonic? s with
  | some op => .ok op
  | none => .error (.noSuchMnemonic s)

end Opcode

/-- What an opcode field holds. -/
inductive OpTag where
  | opcode (op : Opcode)
  | number (n : Int)
  | word (s : String)
  deriving DecidableEq, Repr

namespace OpTag

/-- The kind of thing in the field. -/
def kind : OpTag → String
  | .opcode _ => "Opcode"
  | .number _ => "int"
  | .word _ => "str"

def text : OpTag → String
  | .opcode op => op.mnemonic
  | .number n => toString n
  | .word s => s

def fieldText : OpTag → String
  | .opcode op => s!"<Opcode.{op.mnemonic}: {op.number}>"
  | .number n => toString n
  | .word s => Text.quoted s

/-- The opcode that the field selects when it is run: a number selects the
opcode of that number. -/
def selects? : OpTag → Option Opcode
  | .opcode op => some op
  | .number n => Opcode.ofNumber? n
  | .word _ => none

end OpTag

/-- A property of opcodes was asked of something else. -/
inductive TagError where
  | noMnemonic (tag : OpTag)
  | noOperandCount (tag : OpTag)
  deriving DecidableEq, Repr

def TagError.message : TagError → String
  | .noMnemonic tag => s!"'{tag.kind}' object has no attribute 'name'"
  | .noOperandCount tag => s!"'{tag.kind}' object has no attribute 'arg_count'"

structure Instruction where
  tag : OpTag
  args : List Int
  deriving DecidableEq, Repr

namespace Instruction

def move (dst src : Int) : Instruction := ⟨.opcode .move, [dst, src]⟩

def loadConstant (dst constant : Int) : Instruction :=
  ⟨.opcode .loadConstant, [dst, constant]⟩

def add (dst lhs rhs : Int) : Instruction := ⟨.opcode .add, [dst, lhs, rhs]⟩

def text (i : Instruction) : Except TagError String :=
  match i.tag with
  | .opcode op => .ok (op.render i.args)
  | tag => .error (.noMnemonic tag)

def operandCount (i : Instruction) : Except TagError Nat :=
  match i.tag with
  | .opcode op => .ok op.operandCount
  | tag => .error (.noOperandCount tag)

/-- Operands between parentheses; a single one keeps a comma after it. -/
def argsText : List Int → String
  | [] => "()"
  | [a] => s!"({a},)"
  | args => "(" ++ ", ".intercalate (args.map toString) ++ ")"

def constructorText (i : Instruction) : String :=
  s!"Instruction(opcode={i.tag.fieldText}, args={argsText i.args})"

end Instruction

end RegisterVm
