import RegisterVm.Binary64.Basic

/-!
# Decimals: reading them into numbers and selecting them for numbers

`Binary64.ofDecimal` is the number nearest to a decimal, ties to even.
`Binary64.shortest` goes back: of the decimals that are read as the given number
it takes one with the fewest digits, and of those the nearest. How the digits
are then written is a separate matter, decided by a `Decimal.Layout`.
-/

namespace RegisterVm

/-- The decimal `digits * 10 ^ exponent`. -/
structure Decimal where
  digits : Nat
  exponent : Int
  deriving DecidableEq, Repr

namespace Decimal

def digitCount (n : Nat) : Nat := (Nat.toDigits 10 n).length

/-- The power of ten just above the decimal: `10 ^ (size - 1) ≤ d < 10 ^ size`
unless `d` is zero. -/
def size (d : Decimal) : Int := digitCount d.digits + d.exponent

/-- The decimal cut to its `n` leading digits, and the neighbour above it on
that grid. -/
def neighbours (d : Decimal) (n : Nat) : Decimal × Decimal :=
  let dropped := digitCount d.digits - n
  let lower := d.digits / Nat.pow 10 dropped
  (⟨lower, d.exponent + dropped⟩, ⟨lower + 1, d.exponent + dropped⟩)

/-- The nearer of the two neighbours; a half goes to the even one. -/
def nearest (d : Decimal) (n : Nat) : Decimal :=
  let dropped := digitCount d.digits - n
  ⟨Binary64.roundDiv d.digits (Nat.pow 10 dropped), d.exponent + dropped⟩

/-- A neighbour on the grid of `n` digits that is accepted, the nearest if both
are. -/
def shorten? (accepts : Decimal → Bool) (d : Decimal) (n : Nat) :
    Option Decimal :=
  let (lower, upper) := d.neighbours n
  match accepts lower, accepts upper with
  | true, true => some (d.nearest n)
  | true, false => some lower
  | false, true => some upper
  | false, false => none

end Decimal

namespace Binary64

/-! ## Reading -/

/-- The number nearest to a decimal. Decimals from `10 ^ 309` on are beyond the
finite numbers, and those below `10 ^ -324` are less than half a unit, so
neither needs its power of ten. -/
def ofDecimal (neg : Bool) (d : Decimal) : Binary64 :=
  if d.digits = 0 ∨ d.size ≤ -324 then zero neg
  else if 310 ≤ d.size then .infinite neg
  else ofRatio neg (d.digits * Nat.pow 10 d.exponent.toNat * one)
    (Nat.pow 10 (-d.exponent).toNat)

/-! ## Selecting -/

/-- The exact value of a rank: `2 ^ -1074` is `5 ^ 1074 * 10 ^ -1074`. -/
def exactDecimal (rank : Fin finiteCount) : Decimal :=
  ⟨unitsAt rank * Nat.pow 5 1074, -1074⟩

def readsAs (rank : Fin finiteCount) (d : Decimal) : Bool :=
  ofDecimal false d = .finite false rank

/-- A decimal of `n` digits that is read as the number, the nearest if there are
two. -/
def withDigits? (rank : Fin finiteCount) (n : Nat) : Option Decimal :=
  (exactDecimal rank).shorten? (readsAs rank) n

/-- The most digits that any number needs. -/
def maxDigits : Nat := 17

/-- The fewest digits that are read as the number. -/
def shortest (rank : Fin finiteCount) : Decimal :=
  ((List.range maxDigits).findSome? fun i => withDigits? rank (i + 1)).getD
    (exactDecimal rank)

end Binary64

/-! ## Layout -/

/-- The decisions of a number format: from which power of ten of the leading
digit up to which one the digits are written in place, and how many digits an
exponent has at least. -/
structure Decimal.Layout where
  plainFrom : Int
  plainBelow : Int
  exponentWidth : Nat

namespace Decimal.Layout

def dropTrailingZeros (ds : List Char) : List Char :=
  (ds.reverse.dropWhile (· == '0')).reverse

/-- Digits in place, with at least one digit on each side of the point. -/
def plain (lead : Int) (ds : List Char) : List Char :=
  if lead < 0 then
    '0' :: '.' :: (List.replicate (-lead - 1).toNat '0' ++ ds)
  else
    let whole := lead.toNat + 1
    let fraction := ds.drop whole
    ds.take whole ++ List.replicate (whole - ds.length) '0' ++ '.' ::
      (if fraction.isEmpty then ['0'] else fraction)

/-- One digit before the point, which is left out if nothing follows, and a
signed exponent. -/
def scientific (f : Layout) (lead : Int) (ds : List Char) : List Char :=
  let mantissa := match ds with
    | d :: e :: rest => d :: '.' :: e :: rest
    | short => short
  mantissa ++ 'e' :: (if lead < 0 then '-' else '+') ::
    (Nat.toDigits 10 lead.natAbs).leftpad f.exponentWidth '0'

/-- The digits of `d` as the layout has them; zero stands in place. -/
def write (f : Layout) (d : Decimal) : List Char :=
  let lead := if d.digits = 0 then 0 else d.size - 1
  let ds := dropTrailingZeros (Nat.toDigits 10 d.digits)
  if f.plainFrom ≤ lead ∧ lead < f.plainBelow then plain lead ds
  else f.scientific lead ds

end Decimal.Layout

/-- The number in the given layout, by the fewest digits that are read back as
it. -/
def Binary64.text (f : Decimal.Layout) : Binary64 → String
  | .nan => "nan"
  | .infinite neg => if neg then "-inf" else "inf"
  | .finite neg r =>
      let ds := f.write (shortest r)
      String.ofList (if neg then '-' :: ds else ds)

end RegisterVm
