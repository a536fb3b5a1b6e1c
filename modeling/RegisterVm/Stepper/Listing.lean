import RegisterVm.Frame.Listing

/-!
# Explained listings

The listing of a frame that the stepper shows: each instruction with what it
does, its operands by the names of registers and the values of constants.
-/

namespace RegisterVm.Stepper

/-- An operand with its name or value, where it has one. -/
def operandText (f : Frame) (ref : Int) : String :=
  if Operand.isConstant ref then
    match f.constants[(Operand.constantIndex ref).toNat]? with
    | some v => s!"{Operand.text ref} ({v.text})"
    | none => Operand.text ref
  else s!"{Operand.text ref} ({f.nameAt ref.toNat})"

/-- What an instruction does; nothing is said of one that selects no opcode. -/
def remark (f : Frame) (instr : Instruction) : Except Missing String :=
  match instr.tag.selects?, instr.args with
  | none, _ => .ok ""
  | some .add, dst :: lhs :: rhs :: _ =>
      .ok s!"  ; {operandText f dst} <- {operandText f lhs} + {operandText f rhs}"
  | some .move, dst :: src :: _ =>
      .ok s!"  ; {operandText f dst} <- {operandText f src}"
  | some .loadConstant, dst :: src :: _ =>
      .ok s!"  ; {operandText f dst} <- {operandText f src}"
  | some _, args => .error (.operand args.length)

inductive ListingError where
  | noText (e : TagError)
  | missing (e : Missing)

def ListingError.message : ListingError → String
  | .noText e => e.message
  | .missing e => e.message

def line (f : Frame) (instr : Instruction) (i : Nat) :
    Except ListingError String := do
  let text ← instr.text.mapError .noText
  let note ← (remark f instr).mapError .missing
  return Text.flushRight 6 (toString i) ++ ": " ++ Text.flushLeft 24 text ++ note

def rule : String := String.ofList (List.replicate 70 '=')

def header (f : Frame) : List String :=
  [rule,
   s!"Instructions: {f.code.length}",
   s!"Registers: {f.size} ({f.locals.length} locals, {f.temporaryCount} temporaries)",
   s!"Constants: {f.constants.length}",
   rule]

def listing (f : Frame) : Except ListingError (List String) := do
  let code ← f.code.zipIdx.mapM fun (instr, i) => line f instr i
  return header f ++ code

end RegisterVm.Stepper
