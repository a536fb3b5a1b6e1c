import RegisterVm.Machine.Basic

/-!
# Running

`Machine.step` runs one instruction. What an instruction does is said once, by
`Machine.perform` on its decoded form; an operand that cannot be read, is no
number where one is needed, or cannot be written makes the step fail before any
register changes. `Machine.run` steps until the end or the first failure.
-/

namespace RegisterVm

/-- An instruction with its operands in their roles. -/
inductive Action where
  | move (dst src : Int)
  | loadConstant (dst constant : Int)
  | add (dst lhs rhs : Int)
  deriving DecidableEq, Repr

/-- The action of an opcode on as many operands as it takes. -/
def Action.ofOpcode? : Opcode → List Int → Option Action
  | .move, [dst, src] => some (.move dst src)
  | .loadConstant, [dst, constant] => some (.loadConstant dst constant)
  | .add, [dst, lhs, rhs] => some (.add dst lhs rhs)
  | _, _ => none

/-- A step that ran: the instruction, its place, and the registers after it. -/
structure Event where
  pc : Nat
  op : Opcode
  args : List Int
  registers : List Value
  deriving DecidableEq, Repr

def Event.instruction (e : Event) : Instruction := ⟨.opcode e.op, e.args⟩

/-- Why a step fails: by a fault, or because the opcode field holds a number in
place of an opcode. -/
inductive StepError where
  | fault (f : Fault)
  | tag (e : TagError)
  deriving DecidableEq, Repr

def StepError.message : StepError → String
  | .fault f => f.diagnostic.text
  | .tag e => e.message

inductive Outcome where
  | executed (e : Event)
  | ended
  | failed (e : StepError)
  deriving DecidableEq, Repr

/-- A run: what was executed, the machine after it, and the failure that ended
it if one did. -/
structure Run where
  events : List Event
  machine : Machine
  failure : Option StepError

namespace Machine

/-- The machine after an action: operands are read from left to right, then the
destination is written. -/
def perform (m : Machine) : Action → Except Fault Machine
  | .move dst src => do
      let v ← m.value src
      m.setRegister dst v
  | .loadConstant dst constant => do
      let v ← m.constant constant
      m.setRegister dst v
  | .add dst lhs rhs => do
      let x ← m.number lhs
      let y ← m.number rhs
      m.setRegister dst (.number (x.add y))

def fail (m : Machine) (f : Fault) : Outcome × Machine :=
  (.failed (.fault f), { m with status := .faulted })

/-- The step of an instruction whose opcode field holds `tag`. -/
def stepAt (m : Machine) (tag : OpTag) (args : List Int) : Outcome × Machine :=
  match tag with
  | .opcode op =>
      match Action.ofOpcode? op args with
      | none => m.fail (.malformed m.pc op args)
      | some action =>
          match m.perform action with
          | .ok m' =>
              (.executed ⟨m.pc, op, args, m'.registers⟩,
                { m' with pc := m.pc + 1 })
          | .error f => { m with pc := m.pc + 1 }.fail f
  | tag =>
      if tag.selects?.isSome then (.failed (.tag (.noOperandCount tag)), m)
      else m.fail (.unimplemented tag)

def step (m : Machine) : Outcome × Machine :=
  if m.status = .faulted then (.failed (.fault .afterFault), m)
  else match m.frame.code[m.pc]? with
    | none => (.ended, { m with status := .halted })
    | some instr => m.stepAt instr.tag instr.args

/-! ## Whole runs -/

/-- At most `n` steps. -/
def runFor : Nat → Machine → Run
  | 0, m => ⟨[], m, none⟩
  | n + 1, m =>
      match m.step with
      | (.executed e, m') =>
          let rest := runFor n m'
          ⟨e :: rest.events, rest.machine, rest.failure⟩
      | (.ended, m') => ⟨[], m', none⟩
      | (.failed e, m') => ⟨[], m', some e⟩

/-- Steps to the end. A step that runs goes on to the next instruction, so one
step more than there are instructions is enough. -/
def run (m : Machine) : Run := m.runFor (m.frame.code.length + 1)

end Machine

end RegisterVm
