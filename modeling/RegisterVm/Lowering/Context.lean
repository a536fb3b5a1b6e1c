import RegisterVm.Diagnostic
import RegisterVm.Frame.Basic
import RegisterVm.Likeness.Suggestion
import RegisterVm.Lowering.Location

/-!
# The context of lowering

What is known while a tree is turned into code: the constants and the locals so
far, which names are visible, the code with its operands still as locations, the
temporaries in use, and the *destination*, the place where the value of the
expression at hand is wanted.

A lowering step keeps what it did to constants, locals and code even if it
fails, but temporaries and the destination are scoped: `withTemporary` and
`withDestination` give them back on every way out.
-/

namespace RegisterVm.Lowering

/-! ## Errors -/

/-- Why a tree has no code. -/
inductive Rejection where
  | alreadyDefined (name : String) (locals : List String)
  | notDefined (name : String) (visible : List String)
  | unknownNode (kind : String)
  | emptyBlock
  | unknownLocation (kind : String)
  deriving DecidableEq, Repr

/-- The names in a row; a word in their place if that leaves nothing to see. -/
def nameList (names : List String) : String :=
  let joined := ", ".intercalate names
  if joined.isEmpty then "(none)" else joined

def Rejection.diagnostic : Rejection → Diagnostic
  | .alreadyDefined name locals =>
      { message := s!"Variable '{name}' is already defined"
        context := "Declared locals: " ++ ", ".intercalate locals
        suggestion :=
          s!"Use an assignment ({name} = ...) to change an existing variable" }
  | .notDefined name visible =>
      { message := s!"Variable '{name}' is not defined"
        context := s!"Declared locals: {nameList visible}"
        suggestion := Likeness.hint name visible }
  | .unknownNode kind =>
      { message := s!"Unknown node type: {kind}"
        expected := "Constant, Add, Let, Var, Set or Block" }
  | .emptyBlock =>
      { message := "Empty block"
        expected := "At least one expression in the block body" }
  | .unknownLocation kind =>
      { message := s!"Unknown location kind {kind} in instruction operands"
        expected := "local, temp or constant" }

/-- Why lowering fails: the tree is rejected, or the context is not one that
lowering itself builds. -/
inductive Error where
  | rejected (r : Rejection)
  | operand (e : OperandError)
  | noRegister (temporary : Int)
  | noName (register : Int)

def Error.message : Error → String
  | .rejected r => r.diagnostic.text
  | .operand e => e.message
  | .noRegister t => toString t
  | .noName _ => "list index out of range"

/-! ## The context -/

/-- An instruction whose operands are still locations. -/
structure Pending where
  op : Opcode
  operands : List Location
  deriving DecidableEq, Repr

structure Context where
  constants : List Value := []
  code : List Pending := []
  /-- The names of the locals, in the order of their registers. -/
  locals : List String := []
  /-- The names that can be used, with their registers, in the order in which
  they became visible. -/
  visible : List (String × Int) := []
  /-- How many temporaries are taken. -/
  taken : Nat := 0
  /-- The temporaries that the code uses, in the order of their first use. -/
  used : List Int := []
  destination : Option Location := none

abbrev Lower := EStateM Error Context

namespace Context

def empty : Context := {}

/-- The temporary that would be taken next. -/
def nextTemporary (c : Context) : Location := .temporary c.taken

def take (c : Context) : Context := { c with taken := c.taken + 1 }

def release (c : Context) : Context := { c with taken := c.taken - 1 }

def aim (c : Context) (d : Option Location) : Context :=
  { c with destination := d }

def visibleNames (c : Context) : List String := c.visible.map Prod.fst

/-- Makes a name visible at a register; a visible name keeps its place. -/
def declare (c : Context) (name : String) (register : Int) : Context :=
  { c with visible :=
      if c.visibleNames.contains name then
        c.visible.map fun (n, r) => if n = name then (n, register) else (n, r)
      else c.visible ++ [(name, register)] }

/-- The temporaries among some locations, added to those already used. -/
def noteUsed (used : List Int) (operands : List Location) : List Int :=
  operands.foldl (fun us l =>
    if l.kind = .temporary ∧ !us.contains l.index then us ++ [l.index] else us)
    used

def emit (c : Context) (op : Opcode) (operands : List Location) : Context :=
  { c with code := c.code ++ [⟨op, operands⟩], used := noteUsed c.used operands }

end Context

/-! ## Steps -/

def reject {α : Type} (r : Rejection) : Lower α :=
  fun c => .error (.rejected r) c

/-- The place of a constant, which joins the pool unless an equal one is
there. -/
def addConstant (v : Value) : Lower Location := fun c =>
  match Value.position? c.constants v with
  | some i => .ok (.constant i) c
  | none =>
      .ok (.constant c.constants.length)
        { c with constants := c.constants ++ [v] }

/-- A register for a new local, whose name is not visible yet. -/
def reserve (name : String) : Lower Location := fun c =>
  if c.locals.contains name then reject (.alreadyDefined name c.locals) c
  else .ok (.localVar c.locals.length) { c with locals := c.locals ++ [name] }

def lookup (name : String) : Lower Location := fun c =>
  match c.visible.lookup name with
  | some register => .ok (.localVar register) c
  | none => reject (.notDefined name c.visibleNames) c

def declare (name : String) (register : Int) : Lower Unit :=
  fun c => .ok () (c.declare name register)

def emit (op : Opcode) (operands : List Location) : Lower Unit :=
  fun c => .ok () (c.emit op operands)

/-- Takes a temporary for as long as `body` runs. -/
def withTemporary {α : Type} (body : Location → Lower α) : Lower α := fun c =>
  match body c.nextTemporary c.take with
  | .ok a c' => .ok a c'.release
  | .error e c' => .error e c'.release

/-- Changes the destination for as long as `body` runs. -/
def withDestination {α : Type} (d : Option Location) (body : Lower α) :
    Lower α := fun c =>
  match body (c.aim d) with
  | .ok a c' => .ok a (c'.aim c.destination)
  | .error e c' => .error e (c'.aim c.destination)

/-- Runs `body` with the destination, or with a temporary in its place if none
is set. -/
def atDestination {α : Type} (body : Location → Lower α) : Lower α := fun c =>
  match c.destination with
  | some dst => body dst c
  | none => withTemporary (fun t => withDestination (some t) (body t)) c

end RegisterVm.Lowering
