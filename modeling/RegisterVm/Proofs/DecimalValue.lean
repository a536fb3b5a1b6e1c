import Mathlib.Algebra.Order.Field.Power
import Mathlib.Algebra.Order.Ring.Rat
import Mathlib.Tactic.NormNum
import Mathlib.Tactic.Ring
import RegisterVm.Binary64.Decimal
import RegisterVm.Proofs.Rounding

/-!
# Reading depends on the value alone

A decimal has a rational value, and the number that is read from it depends on
this value and not on how many digits spell it (`ofDecimal_congr`): the size
that selects the range is the decimal order of magnitude of the value, and the
ratio that is rounded is the value itself. A decimal with the value of a
magnitude of the format is read as that magnitude (`ofDecimal_of_value`). So the
exact decimal of a number is read as the number, and with it the decimal that is
selected to write it (`ofDecimal_shortest`).
-/

namespace RegisterVm

/-! ## Values of decimals -/

namespace Decimal

def value (d : Decimal) : ℚ := d.digits * (10 : ℚ) ^ d.exponent

theorem value_eq_zero_iff {d : Decimal} : d.value = 0 ↔ d.digits = 0 := by
  have hpow : (10 : ℚ) ^ d.exponent ≠ 0 := zpow_ne_zero _ (by norm_num)
  rw [value, mul_eq_zero_iff_right hpow, Nat.cast_eq_zero]

theorem digitCount_bounds {n : Nat} (h : n ≠ 0) :
    10 ^ (digitCount n - 1) ≤ n ∧ n < 10 ^ digitCount n := by
  have hpos : 0 < digitCount n := Nat.length_toDigits_pos
  refine ⟨?_, (Nat.length_toDigits_le_iff (by decide) hpos).mp (Nat.le_refl _)⟩
  by_cases hone : digitCount n = 1
  · rw [hone]
    exact Nat.one_le_iff_ne_zero.mpr h
  · refine Nat.le_of_not_lt fun hlt => ?_
    have hless : digitCount n ≤ digitCount n - 1 :=
      (Nat.length_toDigits_le_iff (by decide) (by omega)).mpr hlt
    omega

/-- The size is the decimal order of magnitude of the value. -/
theorem size_bounds {d : Decimal} (h : d.digits ≠ 0) :
    (10 : ℚ) ^ (d.size - 1) ≤ d.value ∧ d.value < (10 : ℚ) ^ d.size := by
  obtain ⟨hlow, hhigh⟩ := digitCount_bounds h
  have hpos : (0 : ℚ) < (10 : ℚ) ^ d.exponent := zpow_pos (by norm_num) _
  have hcount : 0 < digitCount d.digits := Nat.length_toDigits_pos
  constructor
  · have hsplit : d.size - 1 = (digitCount d.digits - 1 : ℕ) + d.exponent := by
      rw [size]
      omega
    rw [hsplit, zpow_add₀ (by norm_num), zpow_natCast, value]
    exact mul_le_mul_of_nonneg_right (by exact_mod_cast hlow) hpos.le
  · rw [size, zpow_add₀ (by norm_num), zpow_natCast, value]
    exact mul_lt_mul_of_pos_right (by exact_mod_cast hhigh) hpos

theorem size_le_of_value_lt {d : Decimal} {k : ℤ} (h : d.digits ≠ 0)
    (hlt : d.value < (10 : ℚ) ^ k) : d.size ≤ k := by
  have hpow := (size_bounds h).1.trans_lt hlt
  have hexp := (zpow_lt_zpow_iff_right₀ (by norm_num)).mp hpow
  omega

theorem lt_size_of_le_value {d : Decimal} {k : ℤ} (h : d.digits ≠ 0)
    (hle : (10 : ℚ) ^ k ≤ d.value) : k < d.size :=
  (zpow_lt_zpow_iff_right₀ (by norm_num)).mp (hle.trans_lt (size_bounds h).2)

theorem size_congr {d d' : Decimal} (h : d.value = d'.value) (hd : d.digits ≠ 0)
    (hd' : d'.digits ≠ 0) :
    d.size = d'.size := by
  have hle := size_le_of_value_lt hd (h ▸ (size_bounds hd').2)
  have hge := size_le_of_value_lt hd' (h ▸ (size_bounds hd).2)
  omega

theorem digits_eq_zero_congr {d d' : Decimal} (h : d.value = d'.value) :
    d.digits = 0 ↔ d'.digits = 0 := by
  rw [← value_eq_zero_iff, ← value_eq_zero_iff, h]

end Decimal

namespace Binary64

/-! ## Rounding a ratio -/

theorem roundDiv_mul_right (num den : Nat) {c : Nat} (hc : 0 < c) :
    roundDiv (num * c) (den * c) = roundDiv num den := by
  have hlt : 2 * (num % den * c) < den * c ↔ 2 * (num % den) < den := by
    rw [← Nat.mul_assoc, Nat.mul_lt_mul_right hc]
  have hgt : den * c < 2 * (num % den * c) ↔ den < 2 * (num % den) := by
    rw [← Nat.mul_assoc, Nat.mul_lt_mul_right hc]
  simp only [roundDiv, Nat.mul_div_mul_right _ _ hc, Nat.mul_mod_mul_right,
    hlt, hgt]

/-- Equal ratios are rounded to the same natural. -/
theorem roundDiv_congr {num den num' den' : Nat} (hden : 0 < den)
    (hden' : 0 < den') (h : num * den' = num' * den) :
    roundDiv num den = roundDiv num' den' :=
  calc roundDiv num den
      = roundDiv (num * den') (den * den') :=
        (roundDiv_mul_right num den hden').symm
    _ = roundDiv (num' * den) (den' * den) := by rw [h, Nat.mul_comm den den']
    _ = roundDiv num' den' := roundDiv_mul_right num' den' hden

theorem div_congr_cross {num den num' den' : Nat} (hden : 0 < den)
    (hden' : 0 < den') (h : num * den' = num' * den) :
    num / den = num' / den' := by
  rw [← Nat.mul_div_mul_right num den hden', h, Nat.mul_comm den den',
    Nat.mul_div_mul_right num' den' hden]

theorem ratio_cross {num den num' den' : Nat} (hden : 0 < den) (hden' : 0 < den')
    (h : (num : ℚ) / den = (num' : ℚ) / den') : num * den' = num' * den := by
  have hpos : (den : ℚ) ≠ 0 := Nat.cast_ne_zero.mpr (Nat.ne_of_gt hden)
  have hpos' : (den' : ℚ) ≠ 0 := Nat.cast_ne_zero.mpr (Nat.ne_of_gt hden')
  rw [div_eq_div_iff hpos hpos'] at h
  exact_mod_cast h

theorem ofRatio_congr {num den num' den' : Nat} (neg : Bool) (hden : 0 < den)
    (hden' : 0 < den') (h : (num : ℚ) / den = (num' : ℚ) / den') :
    ofRatio neg num den = ofRatio neg num' den' := by
  have hcross := ratio_cross hden hden' h
  have hrank : rankNear num den = rankNear num' den' := by
    rw [rankNear, rankNear, div_congr_cross hden hden' hcross]
    have hpow : 0 < Nat.pow 2 ((num' / den').log2 - 52) :=
      Nat.pow_pos (by decide)
    congr 1
    refine roundDiv_congr (Nat.mul_pos hden hpow) (Nat.mul_pos hden' hpow) ?_
    rw [← Nat.mul_assoc, ← Nat.mul_assoc, hcross]
  simp only [ofRatio, hrank]

/-! ## Reading -/

theorem pow_toNat_div (e : ℤ) :
    ((Nat.pow 10 e.toNat : ℕ) : ℚ) / ((Nat.pow 10 (-e).toNat : ℕ) : ℚ)
      = (10 : ℚ) ^ e := by
  rw [Nat.pow_eq, Nat.pow_eq]
  push_cast
  rw [← zpow_natCast, ← zpow_natCast, ← zpow_sub₀ (by norm_num)]
  congr 1
  omega

/-- The ratio that is rounded is the value, in units. -/
theorem ratio_eq (d : Decimal) :
    ((d.digits * Nat.pow 10 d.exponent.toNat * one : ℕ) : ℚ)
      / ((Nat.pow 10 (-d.exponent).toNat : ℕ) : ℚ)
      = d.value * one := by
  rw [Decimal.value, ← pow_toNat_div]
  push_cast
  ring

/-- Decimals of the same value are read as the same number. -/
theorem ofDecimal_congr (neg : Bool) {d d' : Decimal} (h : d.value = d'.value) :
    ofDecimal neg d = ofDecimal neg d' := by
  have hzero := Decimal.digits_eq_zero_congr h
  by_cases hd : d.digits = 0
  · rw [ofDecimal, ofDecimal, if_pos (Or.inl hd), if_pos (Or.inl (hzero.mp hd))]
  · have hd' : d'.digits ≠ 0 := fun h0 => hd (hzero.mpr h0)
    have hratio : ofRatio neg (d.digits * Nat.pow 10 d.exponent.toNat * one)
        (Nat.pow 10 (-d.exponent).toNat)
        = ofRatio neg (d'.digits * Nat.pow 10 d'.exponent.toNat * one)
          (Nat.pow 10 (-d'.exponent).toNat) := by
      refine ofRatio_congr neg (Nat.pow_pos (by decide))
        (Nat.pow_pos (by decide)) ?_
      rw [ratio_eq, ratio_eq, h]
    rw [ofDecimal, ofDecimal, Decimal.size_congr h hd hd', hratio]
    simp only [hd, hd', false_or]

/-! ## Reading what is exact -/

/-- The magnitude of a rank. -/
def magnitude (rank : Nat) : ℚ := unitsAt rank / one

theorem one_pos : 0 < one := by decide +kernel

theorem unitsAt_lt_of {rank k : Nat} (h : rank < (k + 2) * Nat.pow 2 52) :
    unitsAt rank < Nat.pow 2 53 * Nat.pow 2 k := by
  have hquot : rank / Nat.pow 2 52 - 1 ≤ k := by
    have hlt := (Nat.div_lt_iff_lt_mul (show 0 < Nat.pow 2 52 by decide)).mpr h
    omega
  have hmod := Nat.mod_lt rank (show 0 < Nat.pow 2 52 by decide)
  have hsplit := Nat.div_add_mod' rank (Nat.pow 2 52)
  have hmantissa : rank - (rank / Nat.pow 2 52 - 1) * Nat.pow 2 52
      < Nat.pow 2 53 := by
    have hdouble : Nat.pow 2 53 = Nat.pow 2 52 + Nat.pow 2 52 := by decide
    rw [Nat.sub_one_mul]
    omega
  calc unitsAt rank
      = (rank - (rank / Nat.pow 2 52 - 1) * Nat.pow 2 52)
          * Nat.pow 2 (rank / Nat.pow 2 52 - 1) := rfl
    _ < Nat.pow 2 53 * Nat.pow 2 (rank / Nat.pow 2 52 - 1) :=
        Nat.mul_lt_mul_of_pos_right hmantissa (Nat.pow_pos (by decide))
    _ ≤ Nat.pow 2 53 * Nat.pow 2 k :=
        Nat.mul_le_mul_left _ (Nat.pow_le_pow_right (by decide) hquot)

theorem magnitude_lt_of {rank k c : Nat} (h : unitsAt rank < c)
    (hc : c ≤ Nat.pow 10 k * one) :
    magnitude rank < (10 : ℚ) ^ (k : ℤ) := by
  have hlt := h.trans_le hc
  rw [magnitude, div_lt_iff₀ (Nat.cast_pos.mpr one_pos), zpow_natCast]
  exact_mod_cast hlt

theorem le_magnitude_of {rank k : Nat} (h : unitsAt rank ≠ 0)
    (hone : one ≤ Nat.pow 10 k) :
    (10 : ℚ) ^ (-(k : ℤ)) ≤ magnitude rank := by
  have hle : one ≤ unitsAt rank * Nat.pow 10 k :=
    hone.trans (Nat.le_mul_of_pos_left _ (Nat.pos_of_ne_zero h))
  rw [magnitude, zpow_neg, zpow_natCast,
    inv_le_iff_one_le_mul₀ (pow_pos (by norm_num) k), div_mul_eq_mul_div,
    le_div_iff₀ (Nat.cast_pos.mpr one_pos), one_mul]
  exact_mod_cast hle

/-- The finite magnitudes are less than `10 ^ 309`. -/
theorem magnitude_lt {rank : Nat} (h : rank < finiteCount) :
    magnitude rank < (10 : ℚ) ^ ((309 : ℕ) : ℤ) :=
  magnitude_lt_of (unitsAt_lt_of (k := 2045) h) (by decide +kernel)

/-- The least positive magnitude is more than `10 ^ -324`. -/
theorem le_magnitude {rank : Nat} (h : unitsAt rank ≠ 0) :
    (10 : ℚ) ^ (-((324 : ℕ) : ℤ)) ≤ magnitude rank :=
  le_magnitude_of h (by decide +kernel)

/-- A decimal with the value of a magnitude is read as it. -/
theorem ofDecimal_of_value (neg : Bool) (r : Fin finiteCount) {d : Decimal}
    (h : d.value = magnitude r) :
    ofDecimal neg d = .finite neg r := by
  have hone : (one : ℚ) ≠ 0 := Nat.cast_ne_zero.mpr (Nat.ne_of_gt one_pos)
  by_cases hunits : unitsAt r = 0
  · have hrank : r = ⟨0, by decide⟩ := Fin.ext (unitsAt_eq_zero_iff.mp hunits)
    have hd : d.digits = 0 := by
      rw [← Decimal.value_eq_zero_iff, h, magnitude, hunits, Nat.cast_zero,
        zero_div]
    rw [ofDecimal, if_pos (Or.inl hd), zero, hrank]
  · have hd : d.digits ≠ 0 := by
      rw [Ne, ← Decimal.value_eq_zero_iff, h, magnitude]
      exact div_ne_zero (Nat.cast_ne_zero.mpr hunits) hone
    have hlow := Decimal.lt_size_of_le_value hd (h ▸ le_magnitude hunits)
    have hhigh := Decimal.size_le_of_value_lt hd (h ▸ magnitude_lt r.isLt)
    have hratio : ofRatio neg (d.digits * Nat.pow 10 d.exponent.toNat * one)
        (Nat.pow 10 (-d.exponent).toNat)
        = ofRatio neg (unitsAt r) 1 := by
      refine ofRatio_congr neg (Nat.pow_pos (by decide)) Nat.one_pos ?_
      rw [ratio_eq, h, magnitude, div_mul_cancel₀ _ hone, Nat.cast_one, div_one]
    rw [ofDecimal, if_neg (by omega), if_neg (by omega), hratio, ofRatio_unitsAt]

/-- The sign is read apart from the magnitude. -/
theorem ofDecimal_signed (neg : Bool) {r : Fin finiteCount} {d : Decimal}
    (h : ofDecimal false d = .finite false r) :
    ofDecimal neg d = .finite neg r := by
  unfold ofDecimal at h ⊢
  split at h
  · rename_i hzero
    rw [if_pos hzero]
    cases h
    rfl
  · rename_i hzero
    rw [if_neg hzero]
    split at h
    · cases h
    · rename_i hlarge
      rw [if_neg hlarge]
      unfold ofRatio at h ⊢
      split at h
      · rename_i hfinite
        rw [dif_pos hfinite]
        cases h
        rfl
      · cases h

/-! ## The selected decimal -/

theorem value_mul_five_pow {d : Decimal} {u f c : Nat} (k : Nat)
    (hdigits : d.digits = u * f) (hexponent : d.exponent = -(k : ℤ))
    (hf : f = Nat.pow 5 k) (hc : c = Nat.pow 2 k) : d.value = (u : ℚ) / c := by
  have hten : (10 : ℚ) ^ k = 5 ^ k * 2 ^ k := by
    rw [← mul_pow]
    norm_num
  have hfive : (5 : ℚ) ^ k ≠ 0 := pow_ne_zero k (by norm_num)
  rw [Decimal.value, hdigits, hexponent, hf, hc, Nat.pow_eq, Nat.pow_eq,
    zpow_neg, zpow_natCast, hten, ← div_eq_mul_inv]
  push_cast
  rw [mul_comm (u : ℚ), mul_div_mul_left _ _ hfive]

theorem value_exactDecimal (r : Fin finiteCount) :
    (exactDecimal r).value = magnitude r :=
  value_mul_five_pow 1074 rfl rfl (by decide +kernel) (by decide +kernel)

theorem roundDiv_cases (num den : Nat) :
    roundDiv num den = num / den ∨ roundDiv num den = num / den + 1 := by
  unfold roundDiv
  have hparity := Nat.mod_two_eq_zero_or_one (num / den)
  dsimp only
  split
  · exact Or.inl rfl
  · split
    · exact Or.inr rfl
    · omega

theorem nearest_mem_neighbours (d : Decimal) (n : Nat) :
    d.nearest n = (d.neighbours n).1 ∨ d.nearest n = (d.neighbours n).2 := by
  rcases roundDiv_cases d.digits (Nat.pow 10 (Decimal.digitCount d.digits - n))
    with hlow | hhigh
  · left
    rw [Decimal.nearest, hlow, Decimal.neighbours]
  · right
    rw [Decimal.nearest, hhigh, Decimal.neighbours]

theorem accepted_of_shorten? {accepts : Decimal → Bool} {d d' : Decimal}
    {n : Nat} (h : d.shorten? accepts n = some d') : accepts d' = true := by
  unfold Decimal.shorten? at h
  dsimp only at h
  split at h
  · rename_i hlow hhigh
    cases h
    rcases nearest_mem_neighbours d n with heq | heq
    · rw [heq]
      exact hlow
    · rw [heq]
      exact hhigh
  · rename_i hlow hhigh
    cases h
    exact hlow
  · rename_i hlow hhigh
    cases h
    exact hhigh
  · cases h

/-- The decimal that is selected for a number is read as the number. -/
theorem ofDecimal_shortest (neg : Bool) (r : Fin finiteCount) :
    ofDecimal neg (shortest r) = .finite neg r := by
  refine ofDecimal_signed neg ?_
  unfold shortest
  cases hfound : (List.range maxDigits).findSome? fun i =>
    withDigits? r (i + 1) with
  | none => exact ofDecimal_of_value false r (value_exactDecimal r)
  | some d =>
      obtain ⟨i, -, hi⟩ := List.exists_of_findSome?_eq_some hfound
      exact of_decide_eq_true (accepted_of_shorten? hi)

end Binary64

end RegisterVm
