import RegisterVm.Text.Display
import RegisterVm.Text.Numeral
import RegisterVm.Value.Basic

/-!
# Values from outside data

How a piece of plain data becomes a number or a boolean. Integers are rounded to
the nearest number and refused beyond the finite ones; text has to be a numeral.
Truth is a matter of being non-empty or non-zero.
-/

namespace RegisterVm

/-- Plain data as it comes from outside. Of a sequence or a record only its
emptiness matters. -/
inductive Datum where
  | null
  | boolean (b : Bool)
  | integer (n : Int)
  | number (x : Binary64)
  | text (s : String)
  | sequence (empty : Bool)
  | record (empty : Bool)

/-- Why data is no number. -/
inductive CoercionError where
  | wrongKind (kind : String)
  | tooLarge
  | notNumeral (s : String)

def CoercionError.message : CoercionError → String
  | .wrongKind kind =>
      s!"float() argument must be a string or a real number, not '{kind}'"
  | .tooLarge => "int too large to convert to float"
  | .notNumeral s => s!"could not convert string to float: {Text.quoted s}"

namespace Datum

/-- The number that an integer rounds to, unless it rounds beyond the finite
ones. -/
def integerNumber (n : Int) : Except CoercionError Binary64 :=
  match Binary64.ofInt n with
  | .infinite _ => .error .tooLarge
  | x => .ok x

def toNumber : Datum → Except CoercionError Binary64
  | .null => .error (.wrongKind "NoneType")
  | .boolean b => .ok (Binary64.ofInt (if b then 1 else 0))
  | .integer n => integerNumber n
  | .number x => .ok x
  | .text s => match Text.number? s with
      | some x => .ok x
      | none => .error (.notNumeral s)
  | .sequence _ => .error (.wrongKind "list")
  | .record _ => .error (.wrongKind "dict")

def toBoolean : Datum → Bool
  | .null => false
  | .boolean b => b
  | .integer n => n != 0
  | .number x => !x.equals (Binary64.zero false)
  | .text s => !s.isEmpty
  | .sequence empty => !empty
  | .record empty => !empty

end Datum

end RegisterVm
