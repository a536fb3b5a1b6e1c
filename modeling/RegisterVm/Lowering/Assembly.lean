import RegisterVm.Lowering.Generate

/-!
# From locations to a frame

Once all code is there the registers are known: locals first, then the
temporaries that the code uses, closed up in ascending order.
-/

namespace RegisterVm.Lowering

def ofOperand (e : Except OperandError Int) : Except Error Int :=
  e.mapError .operand

/-- The operand for a location, given the number of locals and the place of each
temporary. -/
def resolve (l : Location) (locals : Int) (places : List (Int × Int)) :
    Except Error Int :=
  match l.kind with
  | .localVar => ofOperand (Operand.ofRegister l.index)
  | .temporary =>
      match places.lookup l.index with
      | some place => ofOperand (Operand.ofRegister (locals + place))
      | none => .error (.noRegister l.index)
  | .constant => ofOperand (Operand.ofConstant l.index)
  | .other kind => .error (.rejected (.unknownLocation kind))

namespace Context

def usedInOrder (c : Context) : List Int := c.used.mergeSort fun a b => a ≤ b

/-- Each temporary in use with its place among them. -/
def places (c : Context) : List (Int × Int) :=
  c.usedInOrder.zipIdx.map fun (t, i) => (t, (i : Int))

/-- The frame of the code so far, with its result at the given location. -/
def frame (c : Context) (result : Location) : Except Error Frame := do
  let code ← c.code.mapM fun p => do
    let args ← p.operands.mapM fun l => resolve l c.locals.length c.places
    return Instruction.mk (.opcode p.op) args
  let ref ← resolve result c.locals.length c.places
  return {
    size := c.locals.length + c.used.length
    constants := c.constants
    locals := c.locals
    code := code
    result := some ref }

end Context

/-- The frame for an expression. -/
def lower (e : Expr) : Except Error Frame :=
  match generate e Context.empty with
  | .ok l c => c.frame l
  | .error err _ => .error err

end RegisterVm.Lowering
