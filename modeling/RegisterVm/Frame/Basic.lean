import RegisterVm.Instruction
import RegisterVm.Operand
import RegisterVm.Value.Basic

/-!
# Frames

A frame is a piece of code ready to run: its constants, the names of its locals,
its instructions and the size of the register file. The locals have the first
registers, temporaries the ones after them.
-/

namespace RegisterVm

structure Frame where
  inputs : Int := 0
  outputs : Int := 0
  size : Int
  constants : List Value
  locals : List String
  code : List Instruction
  result : Option Int := none
  deriving DecidableEq, Repr

/-- The element at an index, where a negative index counts from the end. -/
def signedGet? {α : Type} (xs : List α) (index : Int) : Option α :=
  if 0 ≤ index then xs[index.toNat]?
  else if -index ≤ xs.length then xs[(xs.length + index).toNat]?
  else none

/-- A list was asked for an element beyond its ends. -/
inductive Missing where
  | localName (index : Int)
  | operand (index : Nat)
  deriving DecidableEq, Repr

def Missing.message : Missing → String
  | .localName _ => "tuple index out of range"
  | .operand _ => "tuple index out of range"

namespace Frame

/-- How many registers there are beyond the locals; negative if the locals do
not fit. -/
def temporaryCount (f : Frame) : Int := f.size - f.locals.length

def instruction? (f : Frame) (pc : Int) : Option Instruction :=
  if pc < 0 then none else f.code[pc.toNat]?

/-- The name of a register: that of a local, or the label of a temporary. -/
def nameAt (f : Frame) (register : Nat) : String :=
  match f.locals[register]? with
  | some name => name
  | none => s!"<temp-{register - f.locals.length}>"

/-- The name of a register by any index; a negative one counts the locals from
their end. -/
def registerName (f : Frame) (index : Int) : Except Missing String :=
  if 0 ≤ index then .ok (f.nameAt index.toNat)
  else match signedGet? f.locals index with
    | some name => .ok name
    | none => .error (.localName index)

/-- Frames are equal if their parts are, where constants are compared as
values. -/
def equals (f g : Frame) : Bool :=
  f.inputs == g.inputs && f.outputs == g.outputs && f.size == g.size
    && f.constants.length == g.constants.length
    && (f.constants.zip g.constants).all (fun (a, b) => a.equals b)
    && f.locals == g.locals && f.code == g.code && f.result == g.result

end Frame

end RegisterVm
