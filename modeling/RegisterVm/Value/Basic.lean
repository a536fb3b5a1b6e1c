import RegisterVm.Binary64.Decimal

/-!
# Values

What a register holds: nil, a boolean or a number. Values of different kinds are
never equal, and numbers are compared as numbers, so a NaN is unequal to itself
and the two zeros are equal.
-/

namespace RegisterVm

inductive Value where
  | nil
  | boolean (b : Bool)
  | number (x : Binary64)
  deriving DecidableEq, Repr, Inhabited

namespace Value

def typeName : Value → String
  | .nil => "nil"
  | .boolean _ => "boolean"
  | .number _ => "number"

/-- Numbers are written in place from `0.0001` up to `10 ^ 16`, beyond that with
a signed exponent of at least two digits. -/
def numberLayout : Decimal.Layout where
  plainFrom := -4
  plainBelow := 16
  exponentWidth := 2

/-- Integral numbers are written as integers, with all their digits; a zero has
no sign. -/
def numberText (x : Binary64) : String :=
  match x.toInt? with
  | some n => toString n
  | none => x.text numberLayout

def text : Value → String
  | .nil => "nil"
  | .boolean b => if b then "true" else "false"
  | .number x => numberText x

/-- The value as a constructor call, where a number always shows its fraction
and the sign of zero. -/
def constructorText : Value → String
  | .nil => "KestrelNil()"
  | .boolean true => "KestrelBoolean(value=True)"
  | .boolean false => "KestrelBoolean(value=False)"
  | .number x => s!"KestrelNumber(value={x.text numberLayout})"

/-- Equality of values, as the constant pool sees it. -/
def equals : Value → Value → Bool
  | .nil, .nil => true
  | .boolean a, .boolean b => a == b
  | .number x, .number y => x.equals y
  | _, _ => false

/-- The position of the first value in `pool` that equals `v`. -/
def position? (pool : List Value) (v : Value) : Option Nat :=
  pool.findIdx? (·.equals v)

/-- `pool` with `v` at its end, unless a value of the pool equals it. -/
def addDistinct (pool : List Value) (v : Value) : List Value :=
  if (position? pool v).isSome then pool else pool ++ [v]

/-- The values without repeats, first occurrences in order; every NaN stays. -/
def distinct (vs : List Value) : List Value :=
  vs.foldl addDistinct []

end Value

end RegisterVm
