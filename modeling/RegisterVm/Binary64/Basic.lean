/-!
# Binary64 numbers, exactly

A finite number is a sign and a *rank*: the finite magnitudes of the format are
counted from zero upwards, so that the rank is at once the place of the
magnitude in the order and the number that its 63 low bits spell. Every finite
magnitude is a whole number of units of `2 ^ -1074`, the least positive one, so
sums are exact integers and an operation is "compute exactly, then round once"
(`ofRatio`).

No machine arithmetic is involved: all definitions compute on naturals and
integers.
-/

namespace RegisterVm

/-- How many finite magnitudes there are, zero included. -/
def Binary64.finiteCount : Nat := 2047 * Nat.pow 2 52

/-- A binary64 number. All NaNs are one value; the two zeros are two. -/
inductive Binary64 where
  | nan
  | infinite (neg : Bool)
  | finite (neg : Bool) (rank : Fin Binary64.finiteCount)
  deriving DecidableEq, Repr

namespace Binary64

/-! ## The grid of magnitudes -/

/-- The units in `1`: magnitudes are counted in units of `2 ^ -1074`. -/
def one : Nat := Nat.pow 2 1074

/-- The magnitude of a rank, in units. The first `2 ^ 53` ranks are one unit
apart; from there on each run of `2 ^ 52` ranks doubles the gap. -/
def unitsAt (rank : Nat) : Nat :=
  let shift := rank / Nat.pow 2 52 - 1
  (rank - shift * Nat.pow 2 52) * Nat.pow 2 shift

/-- The quotient rounded to the nearest natural; a half goes to the even
neighbour. -/
def roundDiv (num den : Nat) : Nat :=
  let q := num / den
  let r := num % den
  if 2 * r < den then q
  else if den < 2 * r then q + 1
  else q + q % 2

/-- The rank nearest to `num / den` units. A mantissa that rounds up past its
run lands on the first rank of the next one, because ranks are consecutive
across runs. -/
def rankNear (num den : Nat) : Nat :=
  let shift := (num / den).log2 - 52
  shift * Nat.pow 2 52 + roundDiv num (den * Nat.pow 2 shift)

def zero (neg : Bool) : Binary64 := .finite neg ⟨0, by decide⟩

/-- The number nearest to `num / den` units: infinite once the rank leaves the
finite ones. -/
def ofRatio (neg : Bool) (num den : Nat) : Binary64 :=
  if h : rankNear num den < finiteCount then .finite neg ⟨rankNear num den, h⟩
  else .infinite neg

def ofInt (n : Int) : Binary64 :=
  ofRatio (decide (n < 0)) (n.natAbs * one) 1

/-! ## Arithmetic and comparison -/

def signed (neg : Bool) (magnitude : Nat) : Int :=
  if neg then -(magnitude : Int) else magnitude

/-- The sum, rounded once. A sum of nothing is a negative zero only if both
sides are. -/
def add : Binary64 → Binary64 → Binary64
  | .nan, _ => .nan
  | _, .nan => .nan
  | .infinite a, .infinite b => if a = b then .infinite a else .nan
  | .infinite a, .finite _ _ => .infinite a
  | .finite _ _, .infinite b => .infinite b
  | .finite a r, .finite b s =>
      let total := signed a (unitsAt r) + signed b (unitsAt s)
      if total = 0 then zero (a && b)
      else ofRatio (decide (total < 0)) total.natAbs 1

/-- Numeric equality: NaN equals nothing, and the two zeros are equal. -/
def equals : Binary64 → Binary64 → Bool
  | .infinite a, .infinite b => a == b
  | .finite a r, .finite b s => r == s && (a == b || r.val == 0)
  | _, _ => false

/-- The integer that the number is, if it is one. -/
def toInt? : Binary64 → Option Int
  | .finite neg r =>
      if unitsAt r % one = 0 then some (signed neg (unitsAt r / one)) else none
  | _ => none

/-! ## Interchange form -/

def signBit (neg : Bool) : Nat := if neg then Nat.pow 2 63 else 0

/-- The 64 bits of the number as a natural; a NaN has no bits of its own. -/
def bits? : Binary64 → Option Nat
  | .nan => none
  | .infinite neg => some (signBit neg + finiteCount)
  | .finite neg r => some (signBit neg + r)

def ofBits (bits : Nat) : Binary64 :=
  let neg := bits / Nat.pow 2 63 % 2 == 1
  let rank := bits % Nat.pow 2 63
  if h : rank < finiteCount then .finite neg ⟨rank, h⟩
  else if rank = finiteCount then .infinite neg
  else .nan

end Binary64

end RegisterVm
