import RegisterVm.Binary64.Basic

/-!
# Rounding keeps what is exact

A magnitude of the format is its own nearest magnitude (`ofRatio_unitsAt`). So a
sum with a zero is the other number (`add_of_isZero`), and a sum of zeros is a
zero (`isZero_add`); only its sign depends on those of its sides.
-/

namespace RegisterVm.Binary64

/-! ## Exact magnitudes -/

theorem roundDiv_mul (m : Nat) {den : Nat} (hden : 0 < den) :
    roundDiv (m * den) den = m := by
  rw [roundDiv, Nat.mul_div_cancel m hden, Nat.mul_mod_left, if_pos (by omega)]

/-- The magnitudes from `2 ^ 52` units on are the products of a 53-bit number
and a power of two. -/
theorem rankNear_scaled {m shift : Nat} (hlow : Nat.pow 2 52 ≤ m)
    (hhigh : m < Nat.pow 2 53) :
    rankNear (m * Nat.pow 2 shift) 1 = shift * Nat.pow 2 52 + m := by
  have hpos : 0 < Nat.pow 2 shift := Nat.pow_pos (by decide)
  have hlog : (m * Nat.pow 2 shift).log2 = 52 + shift := by
    have hm : 0 < m := Nat.lt_of_lt_of_le (by decide) hlow
    have hne : m * Nat.pow 2 shift ≠ 0 := Nat.ne_of_gt (Nat.mul_pos hm hpos)
    rw [Nat.log2_eq_iff hne, Nat.pow_add, show 52 + shift + 1
      = 53 + shift by omega, Nat.pow_add]
    exact ⟨Nat.mul_le_mul_right _ hlow, Nat.mul_lt_mul_of_pos_right hhigh hpos⟩
  rw [rankNear, Nat.div_one, hlog, Nat.add_sub_cancel_left, Nat.one_mul,
    roundDiv_mul m hpos]

/-- The rank of a magnitude is the one nearest to it. -/
theorem rankNear_unitsAt (rank : Nat) : rankNear (unitsAt rank) 1 = rank := by
  rw [unitsAt]
  by_cases hsmall : rank < Nat.pow 2 52
  · have hshift : rank / Nat.pow 2 52 - 1 = 0 := by rw [Nat.div_eq_of_lt hsmall]
    have hlog : rank.log2 - 52 = 0 := by
      by_cases hzero : rank = 0
      · rw [hzero]
        rfl
      · have hlt : rank.log2 < 52 := (Nat.log2_lt hzero).mpr hsmall
        omega
    rw [hshift]
    simp [rankNear, hlog, roundDiv, Nat.mod_one]
  · have hquot : 0 < rank / Nat.pow 2 52 :=
      Nat.div_pos (Nat.le_of_not_lt hsmall) (by decide)
    obtain ⟨shift, hshift⟩ := Nat.exists_eq_add_of_lt hquot
    rw [Nat.zero_add] at hshift
    have hmod : rank % Nat.pow 2 52 < Nat.pow 2 52 := Nat.mod_lt rank (by decide)
    have hrank :
        rank = shift * Nat.pow 2 52 + (Nat.pow 2 52 + rank % Nat.pow 2 52) := by
      have hsplit := Nat.div_add_mod' rank (Nat.pow 2 52)
      rw [hshift, Nat.succ_mul] at hsplit
      omega
    have hmantissa : rank - shift * Nat.pow 2 52
        = Nat.pow 2 52 + rank % Nat.pow 2 52 := by omega
    rw [hshift, Nat.add_sub_cancel, hmantissa,
      rankNear_scaled (Nat.le_add_right _ _), ← hrank]
    exact Nat.add_lt_add_left hmod _

theorem ofRatio_unitsAt (neg : Bool) (r : Fin finiteCount) :
    ofRatio neg (unitsAt r) 1 = .finite neg r := by
  have hlt : rankNear (unitsAt r) 1 < finiteCount := by
    rw [rankNear_unitsAt]
    exact r.isLt
  rw [ofRatio, dif_pos hlt]
  congr
  exact rankNear_unitsAt r

theorem unitsAt_eq_zero_iff {rank : Nat} : unitsAt rank = 0 ↔ rank = 0 := by
  constructor
  · intro h
    have hrank := rankNear_unitsAt rank
    rw [h] at hrank
    exact hrank.symm
  · rintro rfl
    rfl

/-! ## Sums with a zero -/

def isZero : Binary64 → Bool
  | .finite _ r => r.val == 0
  | _ => false

theorem isZero_iff {x : Binary64} : x.isZero = true ↔ ∃ neg, x = zero neg := by
  constructor
  · intro h
    cases x with
    | nan => cases h
    | infinite neg => cases h
    | finite neg r =>
        refine ⟨neg, ?_⟩
        have hr : r.val = 0 := beq_iff_eq.mp h
        exact congrArg (finite neg) (Fin.ext hr)
  · rintro ⟨neg, rfl⟩
    rfl

/-- Both zeros are the integer zero. -/
theorem toInt?_zero (neg : Bool) : (zero neg).toInt? = some 0 := by
  have hunits : unitsAt 0 = 0 := unitsAt_eq_zero_iff.mpr rfl
  rw [zero, toInt?, hunits, Nat.zero_mod, if_pos rfl, Nat.zero_div]
  cases neg <;> rfl

/-- Two numbers that are equal as numbers are the same one, or zeros. -/
theorem eq_or_isZero_of_equals {x y : Binary64} (h : x.equals y = true) :
    x = y ∨ x.isZero = true ∧ y.isZero = true := by
  cases x with
  | nan => cases h
  | infinite a =>
      cases y with
      | infinite b => exact Or.inl (congrArg infinite (beq_iff_eq.mp h))
      | nan | finite => cases h
  | finite a r =>
      cases y with
      | finite b s =>
          simp only [equals, Bool.and_eq_true, Bool.or_eq_true, beq_iff_eq] at h
          obtain ⟨rfl, rfl | hzero⟩ := h
          · exact Or.inl rfl
          · exact Or.inr ⟨beq_iff_eq.mpr hzero, beq_iff_eq.mpr hzero⟩
      | nan | infinite => cases h

theorem add_comm (x y : Binary64) : x.add y = y.add x := by
  cases x with
  | nan => cases y <;> rfl
  | infinite a =>
      cases y with
      | infinite b => cases a <;> cases b <;> rfl
      | nan | finite => rfl
  | finite a r =>
      cases y with
      | finite b s => simp only [add, Int.add_comm, Bool.and_comm]
      | nan | infinite => rfl

/-- A zero adds nothing to a number that is none. -/
theorem add_of_isZero {x z : Binary64} (hx : x.isZero = false)
    (hz : z.isZero = true) : x.add z = x := by
  obtain ⟨neg, rfl⟩ := isZero_iff.mp hz
  cases x with
  | nan => rfl
  | infinite a => rfl
  | finite a r =>
      have hpos : unitsAt r ≠ 0 := fun h => by
        rw [isZero, unitsAt_eq_zero_iff.mp h] at hx
        cases hx
      have hnone : signed neg (unitsAt 0) = 0 := by cases neg <;> rfl
      have htotal : signed a (unitsAt r) + signed neg (unitsAt 0)
          = signed a (unitsAt r) := by
        rw [hnone, Int.add_zero]
      have hne : signed a (unitsAt r) ≠ 0 := by cases a <;> simp [signed, hpos]
      have hneg : decide (signed a (unitsAt r) < 0) = a := by
        cases a <;> simp [signed]; omega
      have habs : (signed a (unitsAt r)).natAbs = unitsAt r := by
        cases a <;> simp [signed]
      show (if signed a (unitsAt r) + signed neg (unitsAt 0) = 0 then
          zero (a && neg)
        else ofRatio (decide (signed a (unitsAt r) + signed neg (unitsAt 0) < 0))
          (signed a (unitsAt r) + signed neg (unitsAt 0)).natAbs 1) = .finite a r
      rw [htotal, if_neg hne, hneg, habs, ofRatio_unitsAt]

theorem isZero_add {x z : Binary64} (hx : x.isZero = true)
    (hz : z.isZero = true) :
    (x.add z).isZero = true := by
  obtain ⟨a, rfl⟩ := isZero_iff.mp hx
  obtain ⟨b, rfl⟩ := isZero_iff.mp hz
  cases a <;> cases b <;> rfl

end RegisterVm.Binary64
