import RegisterVm.Machine.Step

/-!
# The window on the latest steps

An executed step has a line of text: its place, the instruction and the
registers after it. A window keeps the lines of the latest steps, as many as its
limit allows, and counts all of them. A new step is counted first; a full window
then drops its oldest line and is clipped from then on; only then the line of
the step comes in. So a window without room fails on every step: there is
nothing that it could drop.
-/

namespace RegisterVm

/-! ## Step lines -/

namespace Watch

def registerTexts (registers : List Value) : List String :=
  registers.zipIdx.map fun (v, i) => s!"r{i}={v.text}"

/-- A step line from the text of its instruction. -/
def lineOf (pc : Int) (text : String) (registers : List Value) : String :=
  Text.flushRight 3 (toString pc) ++ ": " ++ Text.flushLeft 24 text ++ " | "
    ++ " ".intercalate (registerTexts registers)

/-- A step line for any instruction; one without a text has no line. -/
def line (pc : Int) (instr : Instruction) (registers : List Value) :
    Except TagError String :=
  instr.text.map fun text => lineOf pc text registers

end Watch

/-- The line of a step that ran. -/
def Event.line (e : Event) : String :=
  Watch.lineOf e.pc (e.op.render e.args) e.registers

/-! ## Windows -/

namespace Watch

structure Window where
  limit : Int
  lines : List String := []
  total : Nat := 0
  clipped : Bool := false
  deriving DecidableEq, Repr

/-- Why a step does not come into a window. -/
inductive WindowError where
  | nothingToDrop
  | noLine (e : TagError)
  deriving DecidableEq, Repr

def WindowError.message : WindowError → String
  | .nothingToDrop => "pop from empty list"
  | .noLine e => e.message

namespace Window

/-- The limit of a window for which none is given. -/
def usualLimit : Int := 10000

/-- A full window without its oldest line; one that is not full as it is. -/
def makeRoom (w : Window) : Except WindowError Window :=
  if w.limit ≤ w.lines.length then
    match w.lines with
    | [] => .error .nothingToDrop
    | _ :: rest => .ok { w with lines := rest, clipped := true }
  else .ok w

/-- The window after a step with the given line, and whether the line came
in. -/
def record (w : Window) (line : Except TagError String) :
    Except WindowError Unit × Window :=
  let counted := { w with total := w.total + 1 }
  match counted.makeRoom with
  | .error e => (.error e, counted)
  | .ok roomy =>
      match line with
      | .error e => (.error (.noLine e), roomy)
      | .ok l => (.ok (), { roomy with lines := roomy.lines ++ [l] })

/-- The window after some steps that ran; a window without room keeps only their
count. -/
def recordAll (w : Window) (events : List Event) : Window :=
  events.foldl (fun w e => (w.record (.ok e.line)).2) w

def clear (w : Window) : Window := { limit := w.limit }

end Window

end Watch

end RegisterVm
