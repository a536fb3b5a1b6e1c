import Mathlib.Data.Bool.AllAny
import Mathlib.Tactic.IntervalCases
import RegisterVm.Proofs.DecimalValue
import RegisterVm.Text.Numeral

/-!
# Written decimals are numerals

Whatever the layout, a decimal that is not zero is written as a numeral, and the
numeral has its value (`spells_write`): the places of the digits, the zeros
around them and the exponent balance out. So has the plain row of digits of a
natural (`spells_toDigits`). A numeral is read as the number nearest to its
value, with the sign in front of it (`number?_of_spells`).
-/

namespace RegisterVm.Text

/-! ## Rows of digits -/

def AllDigits (ds : List Char) : Prop := ∀ c ∈ ds, c.isDigit = true

theorem AllDigits.append {ds es : List Char} (hds : AllDigits ds)
    (hes : AllDigits es) : AllDigits (ds ++ es) :=
  fun c hc => (List.mem_append.mp hc).elim (hds c) (hes c)

theorem allDigits_zeros (n : Nat) : AllDigits (List.replicate n '0') := by
  intro c hc
  rw [List.eq_of_mem_replicate hc]
  rfl

theorem allDigits_toDigits (n : Nat) : AllDigits (Nat.toDigits 10 n) :=
  fun _ hc => Nat.isDigit_of_mem_toDigits (by decide) (by decide) hc

theorem digitsValue_toDigits (n : Nat) : digitsValue (Nat.toDigits 10 n) = n :=
  Nat.ofDigitChars_ten_toDigits

theorem digitsValue_append (ds es : List Char) :
    digitsValue (ds ++ es)
      = digitsValue ds * 10 ^ es.length + digitsValue es := by
  rw [digitsValue, Nat.ofDigitChars_append,
    Nat.ofDigitChars_eq_ofDigitChars_zero, Nat.mul_comm]
  rfl

theorem digitsValue_zeros (n : Nat) :
    digitsValue (List.replicate n '0') = 0 := by
  rw [digitsValue, Nat.ofDigitChars_replicate_zero, Nat.mul_zero]

theorem digitsValue_zeros_append (n : Nat) (ds : List Char) :
    digitsValue (List.replicate n '0' ++ ds) = digitsValue ds := by
  rw [digitsValue_append, digitsValue_zeros, Nat.zero_mul, Nat.zero_add]

theorem digitsValue_append_zeros (ds : List Char) (n : Nat) :
    digitsValue (ds ++ List.replicate n '0') = digitsValue ds * 10 ^ n := by
  rw [digitsValue_append, digitsValue_zeros, List.length_replicate, Nat.add_zero]

theorem takeWhile_digits {ds rest : List Char} (hds : AllDigits ds)
    (hrest : ∀ c ∈ rest.head?, c.isDigit = false) :
    (ds ++ rest).takeWhile Char.isDigit = ds := by
  rw [List.takeWhile_append_of_pos hds]
  cases rest with
  | nil => exact List.append_nil ds
  | cons c rest =>
      rw [List.takeWhile_cons_of_neg (by simp [hrest c rfl]), List.append_nil]

theorem dropWhile_digits {ds rest : List Char} (hds : AllDigits ds)
    (hrest : ∀ c ∈ rest.head?, c.isDigit = false) :
    (ds ++ rest).dropWhile Char.isDigit = rest := by
  rw [List.dropWhile_append_of_pos hds]
  cases rest with
  | nil => rfl
  | cons c rest => rw [List.dropWhile_cons_of_neg (by simp [hrest c rfl])]

/-! ## Mantissa and exponent -/

def isNumeralChar (c : Char) : Bool :=
  c.isDigit || ['.', 'e', '+', '-'].contains c

theorem AllDigits.isNumeralChar {ds : List Char} (h : AllDigits ds) :
    ∀ c ∈ ds, isNumeralChar c = true := by
  intro c hc
  rw [Text.isNumeralChar, h c hc, Bool.true_or]

/-- The exponent part of a numeral, which may be empty. -/
structure Scales (x : List Char) (e : ℤ) : Prop where
  chars : ∀ c ∈ x, isNumeralChar c = true
  starts : ∀ c ∈ x.head?, c.isDigit = false ∧ c ≠ '.'
  value : exponent? x = some e

theorem scales_nil : Scales [] 0 where
  chars := by simp
  starts := by simp
  value := rfl

theorem signed_natAbs (n : ℤ) :
    Binary64.signed (decide (n < 0)) n.natAbs = n := by
  by_cases hneg : n < 0
  · rw [decide_eq_true hneg, Binary64.signed, if_pos rfl]
    omega
  · rw [decide_eq_false hneg, Binary64.signed, if_neg Bool.false_ne_true]
    omega

theorem scales_signed (neg : Bool) {ds : List Char} (hds : AllDigits ds)
    (hne : ds ≠ []) :
    Scales ('e' :: (if neg then '-' else '+') :: ds)
      (Binary64.signed neg (digitsValue ds)) where
  chars c hc := by
    rcases List.mem_cons.mp hc with rfl | hc
    · rfl
    · rcases List.mem_cons.mp hc with rfl | hc
      · cases neg <;> rfl
      · exact hds.isNumeralChar c hc
  starts := by
    rintro c ⟨⟩
    decide
  value := by
    have hall : (!ds.isEmpty && ds.all Char.isDigit) = true := by
      simp [hne, List.all_eq_true.mpr hds]
    cases neg <;> simp [exponent?, splitSign, hall, guard]

theorem decimal?_whole {ds x : List Char} {e : ℤ} (hds : AllDigits ds)
    (hne : ds ≠ []) (hx : Scales x e) :
    decimal? (ds ++ x) = some ⟨digitsValue ds, e⟩ := by
  have hend : ∀ c ∈ x.head?, c.isDigit = false := fun c hc => (hx.starts c hc).1
  have hsplit : splitFraction x = ([], x) := by
    unfold splitFraction
    split
    · exact absurd rfl (hx.starts '.' rfl).2
    · rfl
  rw [decimal?, takeWhile_digits hds hend, dropWhile_digits hds hend, hsplit]
  simp [hne, guard, hx.value]

theorem decimal?_point {ds es x : List Char} {e : ℤ} (hds : AllDigits ds)
    (hes : AllDigits es) (hne : ds ≠ []) (hx : Scales x e) :
    decimal? (ds ++ '.' :: (es ++ x))
      = some ⟨digitsValue (ds ++ es), e - es.length⟩ := by
  have hpoint : ∀ c ∈ ('.' :: (es ++ x)).head?, c.isDigit = false := by
    rintro c ⟨⟩
    rfl
  have hend : ∀ c ∈ x.head?, c.isDigit = false := fun c hc => (hx.starts c hc).1
  rw [decimal?, takeWhile_digits hds hpoint, dropWhile_digits hds hpoint,
    splitFraction, takeWhile_digits hes hend, dropWhile_digits hes hend]
  simp [hne, guard, hx.value]

/-! ## Numerals and their values -/

/-- An unsigned numeral with its value. -/
structure Spells (cs : List Char) (v : ℚ) : Prop where
  chars : ∀ c ∈ cs, isNumeralChar c = true
  starts : ∃ c rest, cs = c :: rest ∧ c.isDigit = true
  value : ∃ d, decimal? cs = some d ∧ d.value = v

theorem AllDigits.starts {ds : List Char} (h : AllDigits ds) (hne : ds ≠ [])
    (rest : List Char) :
    ∃ c tail, ds ++ rest = c :: tail ∧ c.isDigit = true := by
  cases ds with
  | nil => exact absurd rfl hne
  | cons c ds => exact ⟨c, ds ++ rest, rfl, h c List.mem_cons_self⟩

theorem spells_whole {ds x : List Char} {e : ℤ} (hds : AllDigits ds)
    (hne : ds ≠ []) (hx : Scales x e) :
    Spells (ds ++ x) (digitsValue ds * (10 : ℚ) ^ e) where
  chars c hc := (List.mem_append.mp hc).elim (hds.isNumeralChar c) (hx.chars c)
  starts := hds.starts hne x
  value := ⟨_, decimal?_whole hds hne hx, rfl⟩

theorem spells_point {ds es x : List Char} {e : ℤ} (hds : AllDigits ds)
    (hes : AllDigits es) (hne : ds ≠ []) (hx : Scales x e) :
    Spells (ds ++ '.' :: (es ++ x))
      (digitsValue (ds ++ es) * (10 : ℚ) ^ (e - es.length)) where
  chars c hc := by
    rcases List.mem_append.mp hc with hc | hc
    · exact hds.isNumeralChar c hc
    · rcases List.mem_cons.mp hc with rfl | hc
      · rfl
      · exact (List.mem_append.mp hc).elim (hes.isNumeralChar c) (hx.chars c)
  starts := hds.starts hne _
  value := ⟨_, decimal?_point hds hes hne hx, rfl⟩

theorem spells_toDigits (n : Nat) : Spells (Nat.toDigits 10 n) n := by
  have hspells :=
    spells_whole (allDigits_toDigits n) Nat.toDigits_ne_nil scales_nil
  rwa [List.append_nil, digitsValue_toDigits, zpow_zero, mul_one] at hspells

/-! ## Layouts

The digits `ds` of a decimal, the first of which stands for `10 ^ lead`, have
the value `digitsValue ds * 10 ^ (lead + 1 - ds.length)`, and every layout keeps
it. -/

section Layout

open Decimal.Layout

variable {ds : List Char} (hds : AllDigits ds)

include hds

/-- All digits stand behind the point and some zeros. -/
theorem spells_plain_small {lead : ℤ} (hlead : lead < 0) :
    Spells (plain lead ds)
      (digitsValue ds * (10 : ℚ) ^ (lead + 1 - ds.length)) := by
  have hspells := spells_point (allDigits_zeros 1)
    ((allDigits_zeros (-lead - 1).toNat).append hds) (by simp)
    scales_nil
  have hexp : 0 - ((List.replicate (-lead - 1).toNat '0' ++ ds).length : ℤ)
      = lead + 1 - ds.length := by
    rw [List.length_append, List.length_replicate]
    omega
  rw [digitsValue_zeros_append, digitsValue_zeros_append, List.append_nil, hexp]
    at hspells
  rw [plain, if_pos hlead]
  exact hspells

variable (hne : ds ≠ [])

include hne

/-- All digits stand before the point, with zeros up to it and one behind it. -/
theorem spells_plain_integral {lead : ℤ} (hlead : 0 ≤ lead)
    (hlen : ds.length ≤ lead.toNat + 1) :
    Spells (plain lead ds)
      (digitsValue ds * (10 : ℚ) ^ (lead + 1 - ds.length)) := by
  have hspells := spells_point (hds.append
    (allDigits_zeros (lead.toNat + 1 - ds.length))) (allDigits_zeros 1)
    (by simp [hne]) scales_nil
  have hexp : lead + 1 - ds.length
      = ((lead.toNat + 1 - ds.length : ℕ) : ℤ) := by omega
  have hvalue : ((digitsValue ds * 10 ^ (lead.toNat + 1 - ds.length)
      * 10 ^ 1 : ℕ) : ℚ) * (10 : ℚ) ^ (0 - (1 : ℤ))
      = digitsValue ds * (10 : ℚ) ^ (lead + 1 - ds.length) := by
    rw [hexp, zpow_natCast, zero_sub, zpow_neg, zpow_one]
    push_cast
    rw [mul_assoc, mul_inv_cancel₀ (by norm_num), mul_one]
  rw [digitsValue_append_zeros, digitsValue_append_zeros, List.length_replicate,
    Nat.cast_one, hvalue] at hspells
  rw [plain, if_neg (by omega)]
  simpa [List.take_of_length_le hlen, List.drop_of_length_le hlen] using hspells

theorem spells_plain_mixed {lead : ℤ} (hlead : 0 ≤ lead)
    (hlen : lead.toNat + 1 < ds.length) :
    Spells (plain lead ds)
      (digitsValue ds * (10 : ℚ) ^ (lead + 1 - ds.length)) := by
  have htake : AllDigits (ds.take (lead.toNat + 1)) := fun c hc =>
    hds c (List.mem_of_mem_take hc)
  have hdrop : AllDigits (ds.drop (lead.toNat + 1)) := fun c hc =>
    hds c (List.mem_of_mem_drop hc)
  have hspells := spells_point htake hdrop (by simp [hne]) scales_nil
  have hexp : 0 - ((ds.drop (lead.toNat + 1)).length : ℤ)
      = lead + 1 - ds.length := by
    rw [List.length_drop]
    omega
  have hfraction : (ds.drop (lead.toNat + 1)).isEmpty = false := by
    simpa using hlen
  rw [List.take_append_drop, List.append_nil, hexp] at hspells
  rw [plain, if_neg (by omega)]
  simpa [hfraction, Nat.sub_eq_zero_of_le hlen.le] using hspells

theorem spells_plain (lead : ℤ) :
    Spells (plain lead ds)
      (digitsValue ds * (10 : ℚ) ^ (lead + 1 - ds.length)) := by
  by_cases hlead : lead < 0
  · exact spells_plain_small hds hlead
  · by_cases hlen : ds.length ≤ lead.toNat + 1
    · exact spells_plain_integral hds hne (by omega) hlen
    · exact spells_plain_mixed hds hne (by omega) (by omega)

theorem spells_scientific (f : Decimal.Layout) (lead : ℤ) :
    Spells (f.scientific lead ds)
      (digitsValue ds * (10 : ℚ) ^ (lead + 1 - ds.length)) := by
  have hexponent := (allDigits_zeros
    (f.exponentWidth - (Nat.toDigits 10 lead.natAbs).length)).append
    (allDigits_toDigits lead.natAbs)
  have hscales :=
    scales_signed (decide (lead < 0)) hexponent (by simp [Nat.toDigits_ne_nil])
  rw [digitsValue_zeros_append, digitsValue_toDigits, signed_natAbs] at hscales
  cases ds with
  | nil => exact absurd rfl hne
  | cons c cs =>
      cases cs with
      | nil =>
          have hspells := spells_whole hds (by simp) hscales
          simpa [scientific, List.leftpad] using hspells
      | cons c' rest =>
          have hfirst : AllDigits [c] := fun x hx => hds x (by simp_all)
          have hothers : AllDigits (c' :: rest) := fun x hx =>
            hds x (List.mem_cons_of_mem c hx)
          have hspells := spells_point hfirst hothers (by simp) hscales
          have hexp : lead - ((c' :: rest).length : ℤ)
              = lead + 1 - ((c :: c' :: rest).length : ℤ) := by
            simp only [List.length_cons]
            omega
          rw [hexp] at hspells
          simpa [scientific, List.leftpad] using hspells

end Layout

theorem exists_trailingZeros (cs : List Char) :
    ∃ n, cs = Decimal.Layout.dropTrailingZeros cs ++ List.replicate n '0' := by
  refine ⟨(cs.reverse.takeWhile (· == '0')).length, ?_⟩
  have hzeros : ∀ c ∈ cs.reverse.takeWhile (· == '0'), c = '0' :=
    fun c hc => beq_iff_eq.mp (List.all_eq_true.mp List.all_takeWhile c hc)
  rw [Decimal.Layout.dropTrailingZeros, ← List.reverse_replicate,
    ← List.eq_replicate_of_mem hzeros, ← List.reverse_append,
    List.takeWhile_append_dropWhile, List.reverse_reverse]

/-- Leaving out zeros at the end keeps the place of the first digit, and with it
the value. -/
theorem significantDigits {d : Decimal} (hd : d.digits ≠ 0) :
    ∃ ds, Decimal.Layout.dropTrailingZeros (Nat.toDigits 10 d.digits) = ds
      ∧ AllDigits ds ∧ ds ≠ []
      ∧ (digitsValue ds : ℚ) * (10 : ℚ) ^ (d.size - ds.length) = d.value := by
  obtain ⟨n, hn⟩ := exists_trailingZeros (Nat.toDigits 10 d.digits)
  generalize Decimal.Layout.dropTrailingZeros (Nat.toDigits 10 d.digits)
    = ds at hn
  have hvalue : digitsValue ds * 10 ^ n = d.digits := by
    rw [← digitsValue_append_zeros, ← hn, digitsValue_toDigits]
  refine ⟨ds, rfl, fun c hc => ?_, ?_, ?_⟩
  · exact allDigits_toDigits d.digits c
      (by rw [hn]; exact List.mem_append_left _ hc)
  · rintro rfl
    exact hd (hvalue ▸ Nat.zero_mul _)
  · have hsize : d.size - ds.length = n + d.exponent := by
      rw [Decimal.size, Decimal.digitCount, hn, List.length_append,
        List.length_replicate]
      omega
    rw [hsize, zpow_add₀ (by norm_num), zpow_natCast, ← mul_assoc,
      Decimal.value, ← hvalue]
    push_cast
    rfl

/-- Every layout writes a decimal as a numeral of its value. -/
theorem spells_write (f : Decimal.Layout) {d : Decimal} (hd : d.digits ≠ 0) :
    Spells (f.write d) d.value := by
  obtain ⟨ds, hdrop, hds, hne, hvalue⟩ := significantDigits hd
  have hplain := spells_plain hds hne (d.size - 1)
  have hscientific := spells_scientific hds hne f (d.size - 1)
  rw [sub_add_cancel, hvalue] at hplain hscientific
  simp only [Decimal.Layout.write, hd, if_false, hdrop]
  split
  · exact hplain
  · exact hscientific

/-! ## Reading numerals -/

theorem digit_cases {c : Char} (h : c.isDigit = true) :
    c ∈ ['0', '1', '2', '3', '4', '5', '6', '7', '8', '9'] := by
  obtain ⟨hlow, hhigh⟩ := Char.isDigit_iff_toNat.mp h
  have hlow' : 48 ≤ c.toNat := hlow
  have hhigh' : c.toNat ≤ 57 := hhigh
  rw [← Char.ofNat_toNat c]
  generalize c.toNat = n at hlow' hhigh'
  interval_cases n <;> decide

/-- The characters of a numeral stand for themselves. -/
theorem isNumeralChar_bare {c : Char} (h : isNumeralChar c = true) :
    plainDigit c = c ∧ isBlank c = false ∧ c ≠ '_' := by
  have hbare : ∀ c ∈ ['0', '1', '2', '3', '4', '5', '6', '7', '8', '9', '.', 'e',
      '+', '-'], plainDigit c = c ∧ isBlank c = false ∧ c ≠ '_' :=
    List.all_iff_forall_prop.mp (by decide +kernel)
  rw [isNumeralChar, Bool.or_eq_true, List.contains_iff_mem] at h
  rcases h with h | h
  · exact hbare c (List.mem_append_left ['.', 'e', '+', '-'] (digit_cases h))
  · exact hbare c (List.mem_append_right
      ['0', '1', '2', '3', '4', '5', '6', '7', '8', '9'] h)

theorem dropWhile_blank {cs : List Char} (h : ∀ c ∈ cs, isBlank c = false) :
    cs.dropWhile isBlank = cs := by
  cases cs with
  | nil => rfl
  | cons c cs =>
      rw [List.dropWhile_cons_of_neg (by simp [h c List.mem_cons_self])]

theorem joinDigits?_of_no_underscore {cs : List Char} {prior : Char}
    (hprior : prior ≠ '_') (h : ∀ c ∈ cs, c ≠ '_') :
    joinDigits? prior cs = some cs := by
  induction cs generalizing prior with
  | nil => rw [joinDigits?, if_neg hprior]
  | cons c cs ih =>
      have hc := h c List.mem_cons_self
      rw [joinDigits?, if_neg hc, if_neg (fun hand => hprior hand.1),
        ih hc fun c' hc' => h c' (List.mem_cons_of_mem c hc')]
      rfl

theorem bareNumeral?_ofList {cs : List Char}
    (h : ∀ c ∈ cs, isNumeralChar c = true) :
    bareNumeral? (String.ofList cs) = some cs := by
  have hplain : cs.map plainDigit = cs := by
    rw [List.map_congr_left (g := id)
      fun c hc => (isNumeralChar_bare (h c hc)).1, List.map_id]
  have hblank : ∀ c ∈ cs, isBlank c = false := fun c hc =>
    (isNumeralChar_bare (h c hc)).2.1
  rw [bareNumeral?, String.toList_ofList, hplain, strip, dropWhile_blank hblank,
    dropWhile_blank fun c hc => hblank c (List.mem_reverse.mp hc),
    List.reverse_reverse]
  exact joinDigits?_of_no_underscore (by decide) fun c hc =>
    (isNumeralChar_bare (h c hc)).2.2

/-- What starts with a digit is no word. -/
theorem unsigned?_of_digit (neg : Bool) {c : Char} {cs : List Char}
    (h : c.isDigit = true) :
    unsigned? neg (c :: cs)
      = (decimal? (c :: cs)).map (Binary64.ofDecimal neg) := by
  have hlower : ∀ c ∈ ['0', '1', '2', '3', '4', '5', '6', '7', '8', '9'],
      c.toLower ≠ 'i' ∧ c.toLower ≠ 'n' :=
    List.all_iff_forall_prop.mp (by decide)
  obtain ⟨hi, hn⟩ := hlower c (digit_cases h)
  have hword : ∀ (x : Char) (xs : List Char), c.toLower ≠ x →
      String.ofList ((c :: cs).map Char.toLower) ≠ String.ofList (x :: xs) := by
    intro x xs hx heq
    exact hx (List.cons.inj (String.ofList_injective heq)).1
  unfold unsigned?
  split
  · rename_i heq
    exact absurd heq (hword 'i' ['n', 'f'] hi)
  · rename_i heq
    exact absurd heq (hword 'i' ['n', 'f', 'i', 'n', 'i', 't', 'y'] hi)
  · rename_i heq
    exact absurd heq (hword 'n' ['a', 'n'] hn)
  · rfl

theorem splitSign_of_digit {c : Char} {cs : List Char} (h : c.isDigit = true) :
    splitSign (c :: cs) = (false, c :: cs) := by
  unfold splitSign
  split
  · rename_i heq
    cases heq
    cases h
  · rename_i heq
    cases heq
    cases h
  · rfl

/-- The text of a number, with a sign in front of it if it is negative. -/
def withSign (neg : Bool) (cs : List Char) : String :=
  String.ofList (if neg then '-' :: cs else cs)

theorem number?_of_spells {cs : List Char} {v : ℚ} (h : Spells cs v)
    (neg : Bool) :
    ∃ d, d.value = v
      ∧ number? (withSign neg cs) = some (Binary64.ofDecimal neg d) := by
  obtain ⟨d, hdecimal, hvalue⟩ := h.value
  obtain ⟨c, rest, hcs, hc⟩ := h.starts
  have hchars : ∀ x ∈ if neg then '-' :: cs else cs, isNumeralChar x = true := by
    cases neg with
    | true =>
        intro x hx
        rcases List.mem_cons.mp hx with rfl | hx
        · rfl
        · exact h.chars x hx
    | false => exact h.chars
  have hsplit : splitSign (if neg then '-' :: cs else cs) = (neg, cs) := by
    cases neg with
    | true => rfl
    | false => rw [hcs]; exact splitSign_of_digit hc
  refine ⟨d, hvalue, ?_⟩
  rw [number?, withSign, bareNumeral?_ofList hchars]
  simp only [Option.bind_eq_bind, Option.bind_some, hsplit]
  rw [hcs, unsigned?_of_digit neg hc, ← hcs, hdecimal]
  rfl

end RegisterVm.Text
