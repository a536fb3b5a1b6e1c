import RegisterVm.Proofs.NumberText
import RegisterVm.Proofs.ZeroSign
import RegisterVm.Value.Coercion

/-!
# Number text reads back

An integral number is written as the integer that it is (`numberText_of_value`),
every other finite number by the decimal that is selected for it. Both are
numerals, of a value that is read as the number again, so the text of a number
is read as that number; only a negative zero loses its sign
(`number?_numberText`). Hence values with the same text are equal, or both NaN.
-/

namespace RegisterVm

/-! ## Integral numbers -/

namespace Binary64

/-- The value of a finite number. -/
def value? : Binary64 → Option ℚ
  | .finite neg r => some (if neg then -magnitude r else magnitude r)
  | _ => none

theorem magnitude_eq_natCast_iff {rank m : Nat} :
    magnitude rank = (m : ℚ) ↔ unitsAt rank = m * one := by
  rw [magnitude, div_eq_iff (Nat.cast_ne_zero.mpr (Nat.ne_of_gt one_pos))]
  exact_mod_cast Iff.rfl

theorem toInt?_of_units {neg : Bool} {r : Fin finiteCount} {m : Nat}
    (h : unitsAt r = m * one) :
    (Binary64.finite neg r).toInt? = some (signed neg m) := by
  rw [toInt?, h, Nat.mul_mod_left, if_pos rfl, Nat.mul_div_cancel _ one_pos]

theorem magnitude_nonneg (rank : Nat) : 0 ≤ magnitude rank :=
  div_nonneg (Nat.cast_nonneg _) (Nat.cast_nonneg _)

theorem toInt?_of_value {x : Binary64} {n : ℤ} (h : x.value? = some (n : ℚ)) :
    x.toInt? = some n := by
  cases x with
  | nan | infinite => cases h
  | finite neg r =>
      have hnonneg := magnitude_nonneg r
      cases neg with
      | false =>
          have hvalue : magnitude r = n := Option.some.inj h
          rw [hvalue] at hnonneg
          obtain ⟨m, rfl⟩ :=
            Int.eq_ofNat_of_zero_le (Int.cast_nonneg_iff.mp hnonneg)
          exact toInt?_of_units
            (magnitude_eq_natCast_iff.mp (by exact_mod_cast hvalue))
      | true =>
          have hvalue : magnitude r = ((-n : ℤ) : ℚ) := by
            rw [Int.cast_neg, ← (Option.some.inj h : -magnitude r = n), neg_neg]
          rw [hvalue] at hnonneg
          obtain ⟨m, hm⟩ :=
            Int.eq_ofNat_of_zero_le (Int.cast_nonneg_iff.mp hnonneg)
          obtain rfl : n = -(m : ℤ) := by omega
          exact toInt?_of_units (magnitude_eq_natCast_iff.mp
            (by rw [hvalue, hm]; exact Int.cast_natCast m))

theorem natAbs_signed (neg : Bool) (m : Nat) : (signed neg m).natAbs = m := by
  cases neg <;> simp [signed]

/-- Only a multiple of the units in `1` is an integer. -/
theorem units_of_toInt? {neg : Bool} {r : Fin finiteCount} {n : ℤ}
    (h : (Binary64.finite neg r).toInt? = some n) :
    unitsAt r = n.natAbs * one ∧ n = signed neg n.natAbs := by
  by_cases hmod : unitsAt r % one = 0
  · rw [toInt?, if_pos hmod] at h
    have hn := Option.some.inj h
    have habs : n.natAbs = unitsAt r / one := by rw [← hn, natAbs_signed]
    rw [habs]
    exact ⟨(Nat.div_mul_cancel (Nat.dvd_of_mod_eq_zero hmod)).symm, hn.symm⟩
  · rw [toInt?, if_neg hmod] at h
    cases h

end Binary64

namespace Value

open Text

theorem toString_int (n : ℤ) :
    toString n = withSign (decide (n < 0)) (Nat.toDigits 10 n.natAbs) := by
  cases n with
  | ofNat m =>
      have hsign : ¬ Int.ofNat m < 0 := by simp
      rw [withSign, decide_eq_false hsign]
      exact Nat.toString_eq_ofList_toDigits
  | negSucc m =>
      rw [withSign, decide_eq_true (Int.negSucc_lt_zero m)]
      have hdigits : (m + 1).repr = String.ofList (Nat.toDigits 10 (m + 1)) :=
        Nat.repr_eq_ofList_toDigits
      show "-" ++ (m + 1).repr = String.ofList ('-' :: Nat.toDigits 10 (m + 1))
      rw [hdigits, ← String.toList_inj]
      simp

/-- An integral number is written as an integer, with all its digits and nothing
else. -/
theorem numberText_of_value {x : Binary64} {n : ℤ}
    (h : x.value? = some (n : ℚ)) :
    numberText x = withSign (decide (n < 0)) (Nat.toDigits 10 n.natAbs) := by
  rw [numberText, Binary64.toInt?_of_value h]
  exact toString_int n

/-! ## Reading back -/

theorem number?_of_toInt? {neg : Bool} {r : Fin Binary64.finiteCount} {n : ℤ}
    (h : (Binary64.finite neg r).toInt? = some n) :
    number? (toString n) = some (.finite (decide (n < 0)) r) := by
  obtain ⟨hunits, -⟩ := Binary64.units_of_toInt? h
  obtain ⟨d, hd, hread⟩ :=
    number?_of_spells (spells_toDigits n.natAbs) (decide (n < 0))
  rw [← Binary64.magnitude_eq_natCast_iff.mpr hunits] at hd
  rw [toString_int, hread, Binary64.ofDecimal_of_value _ r hd]

/-- The decimal of a number that is not integral is not zero. -/
theorem shortest_digits_ne_zero {neg : Bool} {r : Fin Binary64.finiteCount}
    (h : (Binary64.finite neg r).toInt? = none) :
    (Binary64.shortest r).digits ≠ 0 := by
  intro hzero
  have hread := Binary64.ofDecimal_shortest neg r
  rw [Binary64.ofDecimal, if_pos (Or.inl hzero)] at hread
  rw [← hread, Binary64.toInt?_zero] at h
  cases h

theorem number?_text {neg : Bool} {r : Fin Binary64.finiteCount}
    (h : (Binary64.finite neg r).toInt? = none) (f : Decimal.Layout) :
    number? ((Binary64.finite neg r).text f) = some (.finite neg r) := by
  obtain ⟨d, hd, hread⟩ :=
    number?_of_spells (spells_write f (shortest_digits_ne_zero h)) neg
  have htext : (Binary64.finite neg r).text f
      = withSign neg (f.write (Binary64.shortest r)) := rfl
  rw [htext, hread, Binary64.ofDecimal_congr neg hd, Binary64.ofDecimal_shortest]

/-- Where a number is written as an integer, a zero is read as the positive one,
and every other number as itself. -/
theorem sign_of_toInt? {neg : Bool} {r : Fin Binary64.finiteCount} {n : ℤ}
    (h : (Binary64.finite neg r).toInt? = some n) :
    decide (n < 0) = neg ∨ r.val = 0 ∧ decide (n < 0) = false := by
  obtain ⟨hunits, hn⟩ := Binary64.units_of_toInt? h
  by_cases hzero : n.natAbs = 0
  · right
    rw [hzero, Nat.zero_mul] at hunits
    exact ⟨Binary64.unitsAt_eq_zero_iff.mp hunits,
      by simp [Int.natAbs_eq_zero.mp hzero]⟩
  · left
    cases neg with
    | false =>
        have hpos : n = n.natAbs := hn
        simp only [decide_eq_false_iff_not]
        omega
    | true =>
        have hneg : n = -n.natAbs := hn
        simp only [decide_eq_true_eq]
        omega

/-- The text of a number is read as the number, except that a zero has no
sign. -/
theorem number?_numberText (x : Binary64) : ∃ y, number? (numberText x) = some y
    ∧ (x = .nan → y = .nan)
    ∧ (x ≠ .nan → y.equals x = true ∧ (x ≠ .zero true → y = x)) := by
  cases x with
  | nan => exact ⟨.nan, by decide, fun _ => rfl, fun h => absurd rfl h⟩
  | infinite neg =>
      refine ⟨.infinite neg, ?_, (fun h => by cases h), fun _ =>
        ⟨?_, fun _ => rfl⟩⟩
      · cases neg <;> decide
      · cases neg <;> rfl
  | finite neg r =>
      rw [numberText]
      cases hint : (Binary64.finite neg r).toInt? with
      | none =>
          refine ⟨.finite neg r, number?_text hint _, (fun h => by cases h),
            fun _ => ⟨?_, fun _ => rfl⟩⟩
          simp [Binary64.equals]
      | some n =>
          refine ⟨_, number?_of_toInt? hint, (fun h => by cases h), fun _ => ?_⟩
          rcases sign_of_toInt? hint with hsign | ⟨hzero, hsign⟩
          · rw [hsign]
            exact ⟨by simp [Binary64.equals], fun _ => rfl⟩
          · rw [hsign]
            refine ⟨by simp [Binary64.equals, hzero], fun hne => ?_⟩
            have hr : r = ⟨0, by decide⟩ := Fin.ext hzero
            cases neg with
            | false => rfl
            | true => exact absurd (congrArg (Binary64.finite true) hr) hne

/-! ## Texts of values -/

theorem exists_number?_text (x : Binary64) :
    ∃ y, number? (Value.number x).text = some y :=
  (number?_numberText x).imp fun _ h => h.1

/-- What is no number is not read as one. -/
theorem number?_text_eq_none {v : Value} (h : ∀ x, v ≠ .number x) :
    number? v.text = none := by
  cases v with
  | nil => decide
  | boolean b => cases b <;> decide
  | number x => exact absurd rfl (h x)

theorem equals_of_text_number {x y : Binary64}
    (h : (Value.number x).text = (Value.number y).text) :
    x.equals y = true ∨ x = .nan ∧ y = .nan := by
  obtain ⟨z, hz, hnan, hread⟩ := number?_numberText x
  obtain ⟨z', hz', hnan', hread'⟩ := number?_numberText y
  have hsame : z = z' :=
    Option.some.inj (hz.symm.trans ((congrArg number? h).trans hz'))
  subst hsame
  by_cases hx : x = .nan
  · by_cases hy : y = .nan
    · exact Or.inr ⟨hx, hy⟩
    · have hequals := (hread' hy).1
      rw [hnan hx] at hequals
      cases hequals
  · by_cases hy : y = .nan
    · have hequals := (hread hx).1
      rw [hnan' hy] at hequals
      cases hequals
    · exact Or.inl (Binary64.equals_trans (Binary64.equals_symm (hread hx).1)
        (hread' hy).1)

theorem equals_of_text {v w : Value} (h : v.text = w.text) :
    v.equals w = true ∨ v = .number .nan ∧ w = .number .nan := by
  have apart : ∀ {u : Value} {x : Binary64}, (∀ y, u ≠ .number y) →
      u.text ≠ (Value.number x).text := by
    intro u x hu htext
    obtain ⟨y, hy⟩ := exists_number?_text x
    rw [← htext, number?_text_eq_none hu] at hy
    cases hy
  cases v with
  | number x =>
      cases w with
      | number y =>
          rcases equals_of_text_number h with hequals | ⟨rfl, rfl⟩
          · exact Or.inl hequals
          · exact Or.inr ⟨rfl, rfl⟩
      | nil | boolean => exact absurd h.symm (apart nofun)
  | nil =>
      cases w with
      | nil => exact Or.inl rfl
      | boolean b => cases b <;> exact absurd h (by decide)
      | number y => exact absurd h (apart nofun)
  | boolean a =>
      cases w with
      | nil => cases a <;> exact absurd h (by decide)
      | boolean b =>
          cases a <;> cases b
          · exact Or.inl rfl
          · exact absurd h (by decide)
          · exact absurd h (by decide)
          · exact Or.inl rfl
      | number y => exact absurd h (apart nofun)

/-- The text of a number that is no NaN is read as an equal number, and as the
same one unless it is the negative zero. A finite integral number is written as
a sign, if it is negative, and the decimal digits of an integer. Two values have
the same text if and only if they are equal or both NaN. -/
theorem text_reads_back :
    (∀ x : Binary64, x ≠ .nan →
      ∃ y, Datum.toNumber (.text (Value.number x).text) = .ok y
      ∧ (Value.number y).equals (.number x) = true ∧ (x ≠ .zero true → y = x))
    ∧ (∀ (x : Binary64) (n : ℤ), x.value? = some (n : ℚ) →
      (Value.number x).text
        = withSign (decide (n < 0)) (Nat.toDigits 10 n.natAbs))
    ∧ ∀ v w : Value, v.text = w.text
      ↔ v.equals w = true ∨ v = .number .nan ∧ w = .number .nan := by
  refine ⟨fun x hx => ?_, fun x n hn => numberText_of_value hn, fun v w =>
    ⟨equals_of_text, ?_⟩⟩
  · obtain ⟨y, hread, -, hsame⟩ := number?_numberText x
    refine ⟨y, ?_, hsame hx⟩
    rw [Datum.toNumber, text, hread]
  · rintro (hequals | ⟨rfl, rfl⟩)
    · exact (resembles_of_equals hequals).text_eq
    · rfl

/-- The least positive number is read back from its text, and `-2` is written
without a fraction. -/
theorem text_reads_back_least :
    Datum.toNumber (.text (Value.number (.finite false ⟨1, by decide⟩)).text)
      = .ok (.finite false ⟨1, by decide⟩)
    ∧ (Value.number (.finite true ⟨4611686018427387904, by decide⟩)).text
      = "-2" := by
  have htwo : (Binary64.finite true ⟨4611686018427387904, by decide⟩).value?
      = some ((-2 : ℤ) : ℚ) := by
    have hmagnitude : Binary64.magnitude 4611686018427387904 = (2 : Nat) :=
      Binary64.magnitude_eq_natCast_iff.mpr (by decide +kernel)
    rw [Binary64.value?, if_pos rfl, hmagnitude, Int.cast_neg]
    rfl
  obtain ⟨y, hread, -, hsame⟩ :=
    text_reads_back.1 (.finite false ⟨1, by decide⟩) nofun
  refine ⟨by rw [hread, hsame nofun], ?_⟩
  rw [text_reads_back.2.1 _ _ htwo]
  decide

end Value

end RegisterVm
