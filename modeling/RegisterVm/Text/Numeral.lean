import RegisterVm.Binary64.Decimal

/-!
# Numerals

The two grammars of numbers in text: `integer?` and `number?`. Both ignore
blanks around the numeral, take the digits of any script, and allow a single
underscore between two digits.

    integer   = [sign] digits
    number    = [sign] (mantissa [exponent] | "inf" | "infinity" | "nan")
    mantissa  = digits ["." [digits]] | "." digits
    exponent  = ("e" | "E") [sign] digits
-/

namespace RegisterVm.Text

/-! ## Blanks -/

/-- The white space of the Unicode standard: its 25 code points as closed
ranges, in ascending order. -/
def blankRanges : List (Nat × Nat) :=
  [(0x09, 0x0D), (0x20, 0x20), (0x85, 0x85), (0xA0, 0xA0), (0x1680, 0x1680),
   (0x2000, 0x200A), (0x2028, 0x2029), (0x202F, 0x202F), (0x205F, 0x205F),
   (0x3000, 0x3000)]

def isBlank (c : Char) : Bool :=
  blankRanges.any fun (lo, hi) => lo ≤ c.toNat && c.toNat ≤ hi

/-- The text without the blanks at its two ends. -/
def strip (cs : List Char) : List Char :=
  ((cs.dropWhile isBlank).reverse.dropWhile isBlank).reverse

/-! ## Digits -/

/-- The code points of the zeros of all scripts, in ascending order. Each script
has its ten digits in a row. -/
def digitZeros : List Nat :=
  [0x30, 0x660, 0x6F0, 0x7C0, 0x966, 0x9E6, 0xA66, 0xAE6, 0xB66, 0xBE6, 0xC66,
   0xCE6, 0xD66, 0xDE6, 0xE50, 0xED0, 0xF20, 0x1040, 0x1090, 0x17E0, 0x1810,
   0x1946, 0x19D0, 0x1A80, 0x1A90, 0x1B50, 0x1BB0, 0x1C40, 0x1C50, 0xA620,
   0xA8D0, 0xA900, 0xA9D0, 0xA9F0, 0xAA50, 0xABF0, 0xFF10, 0x104A0, 0x10D30,
   0x11066, 0x110F0, 0x11136, 0x111D0, 0x112F0, 0x11450, 0x114D0, 0x11650,
   0x116C0, 0x11730, 0x118E0, 0x11950, 0x11C50, 0x11D50, 0x11DA0, 0x16A60,
   0x16AC0, 0x16B50, 0x1D7CE, 0x1D7D8, 0x1D7E2, 0x1D7EC, 0x1D7F6, 0x1E140,
   0x1E2F0, 0x1E950, 0x1FBF0]

/-- The value of a digit of any script. -/
def digitValue? (c : Char) : Option Nat :=
  digitZeros.findSome? fun base =>
    if base ≤ c.toNat ∧ c.toNat < base + 10 then some (c.toNat - base) else none

/-- A digit of any script as one of `0` to `9`; every other character as it
is. -/
def plainDigit (c : Char) : Char :=
  match digitValue? c with
  | some d => d.digitChar
  | none => c

/-! ## Grammars -/

/-- The text with its underscores taken out, if each stands between two digits.
`prior` is the character before the text. -/
def joinDigits? (prior : Char) : List Char → Option (List Char)
  | [] => if prior = '_' then none else some []
  | c :: rest =>
      if c = '_' then
        if prior.isDigit then joinDigits? c rest else none
      else if prior = '_' ∧ !c.isDigit then none
      else (joinDigits? c rest).map (c :: ·)

/-- The bare numeral inside a text: digits of one script, no blanks around it,
no underscores. -/
def bareNumeral? (s : String) : Option (List Char) :=
  joinDigits? ' ' (strip (s.toList.map plainDigit))

/-- Whether a minus stands in front, and what follows the sign. -/
def splitSign : List Char → Bool × List Char
  | '-' :: rest => (true, rest)
  | '+' :: rest => (false, rest)
  | cs => (false, cs)

def digitsValue (ds : List Char) : Nat := Nat.ofDigitChars 10 ds 0

/-- The longest integer that is read. -/
def maxIntegerDigits : Nat := 4300

def integer? (s : String) : Option Int := do
  let (neg, ds) := splitSign (← bareNumeral? s)
  guard (!ds.isEmpty && ds.all Char.isDigit && ds.length ≤ maxIntegerDigits)
  return Binary64.signed neg (digitsValue ds)

/-- The power of ten that an exponent part stands for; an empty part stands for
none. -/
def exponent? : List Char → Option Int
  | [] => some 0
  | mark :: rest => do
      guard (mark == 'e' || mark == 'E')
      let (neg, ds) := splitSign rest
      guard (!ds.isEmpty && ds.all Char.isDigit)
      return Binary64.signed neg (digitsValue ds)

/-- The digits after a point, and what follows them; no digits where there is no
point. -/
def splitFraction : List Char → List Char × List Char
  | '.' :: rest => (rest.takeWhile Char.isDigit, rest.dropWhile Char.isDigit)
  | cs => ([], cs)

def decimal? (cs : List Char) : Option Decimal := do
  let whole := cs.takeWhile Char.isDigit
  let (fraction, rest) := splitFraction (cs.dropWhile Char.isDigit)
  guard (!(whole ++ fraction).isEmpty)
  let e ← exponent? rest
  return ⟨digitsValue (whole ++ fraction), e - fraction.length⟩

def unsigned? (neg : Bool) (cs : List Char) : Option Binary64 :=
  match String.ofList (cs.map Char.toLower) with
  | "inf" => some (.infinite neg)
  | "infinity" => some (.infinite neg)
  | "nan" => some .nan
  | _ => (decimal? cs).map (Binary64.ofDecimal neg)

def number? (s : String) : Option Binary64 := do
  let (neg, cs) := splitSign (← bareNumeral? s)
  unsigned? neg cs

end RegisterVm.Text
