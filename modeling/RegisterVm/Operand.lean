/-!
# Operands

An operand of an instruction is one integer: a register by its index from zero
up, or a constant by a negative number, so that `-1` is the constant `0`.
-/

namespace RegisterVm

inductive OperandError where
  | negativeRegister (index : Int)
  | negativeConstant (index : Int)

def OperandError.message : OperandError → String
  | .negativeRegister i => s!"Register index must be non-negative, got {i}"
  | .negativeConstant i => s!"Constant index must be non-negative, got {i}"

namespace Operand

def ofRegister (index : Int) : Except OperandError Int :=
  if index < 0 then .error (.negativeRegister index) else .ok index

def ofConstant (index : Int) : Except OperandError Int :=
  if index < 0 then .error (.negativeConstant index) else .ok (-index - 1)

def isConstant (ref : Int) : Bool := ref < 0

/-- The index of the constant that a reference names. -/
def constantIndex (ref : Int) : Int := -ref - 1

def registerInBounds (ref size : Int) : Bool := 0 ≤ ref && ref < size

def constantInBounds (ref count : Int) : Bool :=
  0 ≤ constantIndex ref && constantIndex ref < count

def inBounds (ref size count : Int) : Bool :=
  if isConstant ref then constantInBounds ref count
  else registerInBounds ref size

def text (ref : Int) : String :=
  if isConstant ref then s!"k{constantIndex ref}" else s!"r{ref}"

end Operand

end RegisterVm
