import RegisterVm.Frame.Basic
import RegisterVm.Text.Display

/-!
# Listings

A frame as text: its size, constants, locals, instructions and result, in this
order and one to a line. A frame with an instruction that has no text has no
listing.
-/

namespace RegisterVm.Frame

def constantLine (v : Value) (i : Nat) : String := s!"    k{i}: {v.text}"

def localLine (name : String) (i : Nat) : String := s!"    r{i}: {name}"

/-- The place of an instruction in a column of three. -/
def place (i : Nat) : String := Text.flushRight 3 (toString i)

def instructionLine (instr : Instruction) (i : Nat) :
    Except TagError String := do
  let text ← instr.text
  return s!"    {place i}: {text}"

/-- A line per element, made from the element and its place. -/
def enumerate {α : Type} (line : α → Nat → String) (xs : List α) :
    List String :=
  xs.zipIdx.map fun (x, i) => line x i

def instructionLines (f : Frame) : Except TagError (List String) :=
  f.code.zipIdx.mapM fun (instr, i) => instructionLine instr i

def resultLine : Option Int → List String
  | none => []
  | some ref => ["  Result: " ++ Operand.text ref]

def sizeLine (f : Frame) : String :=
  s!"  Size: {f.size} ({f.locals.length} locals, {f.temporaryCount} temporaries)"

def listing (f : Frame) : Except TagError String := do
  let code ← f.instructionLines
  return Text.lines <|
    ["KestrelFunctionFrame", f.sizeLine, "  Constants:"]
      ++ enumerate constantLine f.constants
      ++ "  Locals:" :: enumerate localLine f.locals
      ++ "  Instructions:" :: code
      ++ resultLine f.result

end RegisterVm.Frame
