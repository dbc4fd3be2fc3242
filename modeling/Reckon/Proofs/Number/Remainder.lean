import Mathlib.Data.Int.ModEq
import Reckon.Proofs.Number.Exact
set_option autoImplicit false

namespace Reckon

variable {x y : Number} {a b : Int}

theorem fmod_bounds_of_neg (a : Int) (hb : b < 0) : b < a.fmod b ∧ a.fmod b ≤ 0 := by
  have hlt : (-a).fmod (-b) < -b := Int.fmod_lt_of_pos _ (by omega)
  have hnonneg : 0 ≤ (-a).fmod (-b) := Int.fmod_nonneg_of_pos _ (by omega)
  rw [Int.neg_fmod_neg] at hlt hnonneg
  omega

theorem fmod_bounds (a : Int) (hb : b ≠ 0) :
    (a.fmod b = 0 ∨ (a.fmod b).sign = b.sign) ∧ |a.fmod b| < |b| := by
  rcases lt_or_gt_of_ne hb with hneg | hpos
  · obtain ⟨hlow, hhigh⟩ := fmod_bounds_of_neg a hneg
    rw [abs_of_neg hneg, abs_of_nonpos hhigh]
    refine ⟨?_, by omega⟩
    rcases Int.lt_or_eq_of_le hhigh with hlt | heq
    · exact .inr (by rw [Int.sign_eq_neg_one_of_neg hlt, Int.sign_eq_neg_one_of_neg hneg])
    · exact .inl heq
  · have hlow := Int.fmod_nonneg_of_pos a hpos
    have hhigh := Int.fmod_lt_of_pos a hpos
    rw [abs_of_pos hpos, abs_of_nonneg hlow]
    refine ⟨?_, hhigh⟩
    rcases Int.lt_or_eq_of_le hlow with hlt | heq
    · exact .inr (by rw [Int.sign_eq_one_of_pos hlt, Int.sign_eq_one_of_pos hpos])
    · exact .inl heq.symm

theorem floor_div_eq_fdiv (a : Int) (hb : b ≠ 0) : ⌊(a / b : ℚ)⌋ = a.fdiv b := by
  have hne : (b : ℚ) ≠ 0 := Int.cast_ne_zero.2 hb
  have hsum : (b : ℚ) * a.fdiv b + a.fmod b = a := by exact_mod_cast Int.mul_fdiv_add_fmod a b
  have hquotient : (a / b : ℚ) = a.fdiv b + a.fmod b / b := by
    rw [← hsum]
    field_simp
  rw [hquotient, Int.floor_intCast_add, Int.floor_eq_zero_iff.2, Int.add_zero]
  rcases lt_or_gt_of_ne hb with hneg | hpos
  · obtain ⟨hlow, hhigh⟩ := fmod_bounds_of_neg a hneg
    have hb : (b : ℚ) < 0 := Int.cast_lt_zero.2 hneg
    exact ⟨div_nonneg_of_nonpos (Int.cast_nonpos.2 hhigh) hb.le,
      (div_lt_one_of_neg hb).2 (Int.cast_lt.2 hlow)⟩
  · have hb : (0 : ℚ) < b := Int.cast_pos.2 hpos
    exact ⟨div_nonneg (Int.cast_nonneg (Int.fmod_nonneg_of_pos a hpos)) hb.le,
      (div_lt_one hb).2 (Int.cast_lt.2 (Int.fmod_lt_of_pos a hpos))⟩

theorem fmod_eq_ite_tmod (a b : Int) :
    a.fmod b = if a.tmod b ≠ 0 ∧ ¬ (a.tmod b < 0 ↔ b < 0) then a.tmod b + b else a.tmod b := by
  have hsign := Int.sign_tmod a b
  rw [Int.fmod_eq_tmod]
  by_cases hdvd : b ∣ a
  · have hzero : a.tmod b = 0 := Int.tmod_eq_zero_of_dvd hdvd
    simp [hdvd, hzero]
  · rw [if_neg hdvd] at hsign ⊢
    have hne : a.tmod b ≠ 0 := fun hzero => hdvd (Int.dvd_of_tmod_eq_zero hzero)
    have hneg : a.tmod b < 0 ↔ a < 0 := by
      rw [← Int.sign_eq_neg_one_iff_neg, hsign, Int.sign_eq_neg_one_iff_neg]
    simp only [hne, hneg, ne_eq, not_false_eq_true, true_and]
    split_ifs <;> omega

namespace Number

theorem leastNormal_le_one : leastNormal ≤ one := by
  rw [leastNormal, one]
  exact pow2_le_pow2 (by decide)

theorem exists_finite_intCast (hx : x.value? = some (a : ℚ)) :
    ∃ negative units, ∃ h : Representable units, x = finite negative units h ∧
      units = a.natAbs * one ∧ signed negative a.natAbs = a := by
  obtain ⟨negative, units, h, rfl, hunits⟩ := exists_finite hx
  have hsigned : signed negative units = a * one := by exact_mod_cast hunits
  have hmagnitude : units = a.natAbs * one := by
    rw [← natAbs_signed negative units, hsigned, Int.natAbs_mul, Int.natAbs_natCast]
  refine ⟨negative, units, h, rfl, hmagnitude, ?_⟩
  rw [hmagnitude, signed_mul] at hsigned
  exact Int.eq_of_mul_eq_mul_right (Int.natCast_ne_zero.2 (pow2_pos 1074).ne') hsigned

theorem signed_mod_eq_tmod {negative : Bool} (h : signed negative a.natAbs = a) (b : Int) :
    signed negative (a.natAbs % b.natAbs) = a.tmod b := by
  rw [← Int.natAbs_tmod]
  cases negative with
  | false =>
    have ha : 0 ≤ a := h ▸ Int.natCast_nonneg a.natAbs
    exact Int.natAbs_of_nonneg (Int.tmod_nonneg b ha)
  | true =>
    have ha : -(a.natAbs : Int) = a := h
    have hneg : 0 ≤ (-a).tmod b := Int.tmod_nonneg b (by omega)
    rw [Int.neg_tmod] at hneg
    simp only [signed, if_true]
    omega

theorem value?_truncatedRemainder (hx : x.value? = some (a : ℚ)) (hy : y.value? = some (b : ℚ))
    (ha : |a| ≤ 2 ^ 53) (hb : b ≠ 0) :
    (truncatedRemainder x y).value? = some (a.tmod b : ℚ) := by
  obtain ⟨negative, u, h, rfl, hu, hsigned⟩ := exists_finite_intCast hx
  obtain ⟨_, v, h', rfl, hv, -⟩ := exists_finite_intCast hy
  have hnormal : ¬ v < leastNormal := by
    have hle : one ≤ b.natAbs * one := Nat.le_mul_of_pos_left _ (Int.natAbs_pos.2 hb)
    have hleast := leastNormal_le_one
    omega
  have hfits : Representable (a.natAbs % b.natAbs * one) := by
    refine representable_mul_one (Nat.le_trans (Nat.mod_le _ _) ?_)
    have hpow : pow2 53 = 2 ^ 53 := rfl
    rw [Int.abs_eq_natAbs] at ha
    omega
  rw [truncatedRemainder, if_neg hnormal, hu, hv, Nat.mul_mod_mul_right, ofRatio_one _ hfits]
  refine value?_eq hfits ?_
  rw [signed_mul, signed_mod_eq_tmod hsigned, Int.cast_mul, Int.cast_natCast]

theorem value?_flooredRemainder (hx : x.value? = some (a : ℚ)) (hy : y.value? = some (b : ℚ))
    (ha : |a| ≤ 2 ^ 53) (hb : |b| ≤ 2 ^ 53) (hne : b ≠ 0) :
    (flooredRemainder x y).value? = some (a.fmod b : ℚ) := by
  have hr := value?_truncatedRemainder hx hy ha hne
  have hfloored := fmod_eq_ite_tmod a b
  have hbound := (fmod_bounds a hne).2
  have hzero : (truncatedRemainder x y).flush.isZero = decide (a.tmod b = 0) := by
    rw [isZero_of_value? (value?_flush_intCast hr)]
    simp
  have hsign : y.isNegative = decide (b < 0) := by
    rw [isNegative_of_value? hy (Int.cast_ne_zero.2 hne)]
    simp
  simp only [flooredRemainder, hzero, hsign]
  generalize truncatedRemainder x y = r at hr
  by_cases hrest : a.tmod b = 0
  · rw [hrest] at hr hfloored
    simpa [hrest, hfloored] using hr
  · have hsign' : r.isNegative = decide (a.tmod b < 0) := by
      rw [isNegative_of_value? hr (Int.cast_ne_zero.2 hrest)]
      simp
    by_cases hsame : a.tmod b < 0 ↔ b < 0
    · simpa [hrest, hsign', hsame, hfloored] using hr
    · rw [if_pos ⟨hrest, hsame⟩] at hfloored
      rw [hfloored] at hbound ⊢
      simpa [hrest, hsign', hsame] using value?_flushed₂_add hr hy (by omega)

end Number

/-- The remainder of whole numbers is that of the quotient rounded down. It depends only on the
residue class of the dividend. -/
theorem floored_remainder (hx : x.value? = some (a : ℚ)) (hy : y.value? = some (b : ℚ))
    (ha : |a| ≤ 2 ^ 53) (hb : |b| ≤ 2 ^ 53) (hne : b ≠ 0) :
    let remainder := Operator.remainder.binary
    ∃ r : Int, (remainder x y).value? = some (r : ℚ) ∧ (r : ℚ) = a - b * ⌊(a / b : ℚ)⌋ ∧
      (r = 0 ∨ r.sign = b.sign) ∧ |r| < |b| ∧ r ≡ a [ZMOD b] ∧
      ∀ (m : Int) (z : Number), |a + m * b| ≤ 2 ^ 53 → z.value? = some (a + m * b : ℚ) →
        (remainder z y).value? = some (r : ℚ) := by
  intro remainder
  obtain ⟨hsign, hbound⟩ := fmod_bounds a hne
  refine ⟨a.fmod b, Number.value?_flooredRemainder hx hy ha hb hne, ?_, hsign, hbound, ?_, ?_⟩
  · rw [floor_div_eq_fdiv a hne, Int.fmod_def]
    push_cast
    ring
  · rw [Int.modEq_iff_dvd]
    exact Int.dvd_self_sub_fmod
  · intro m z hz hvalue
    have hvalue : z.value? = some ((a + m * b : Int) : ℚ) := by exact_mod_cast hvalue
    have hrest := Number.value?_flooredRemainder hvalue hy hz hb hne
    rwa [Int.add_mul_fmod_self_right] at hrest

theorem floored_remainder_negative :
    let x : Number := .ofInt (-2 ^ 53)
    let y : Number := .ofInt 3
    x.value? = some ((-2 ^ 53 : Int) : ℚ) ∧ y.value? = some ((3 : Int) : ℚ) ∧
      |(-2 ^ 53 : Int)| ≤ 2 ^ 53 ∧ |(3 : Int)| ≤ 2 ^ 53 ∧ (3 : Int) ≠ 0 ∧
      (Operator.remainder.binary x y).value? = some 1 ∧
      (Operator.remainder.binary (.ofInt (-2 ^ 53 + 3)) y).value? = some 1 := by
  intro x y
  have hx : x.value? = some ((-2 ^ 53 : Int) : ℚ) := Number.value?_ofInt (by decide)
  have hy : y.value? = some ((3 : Int) : ℚ) := Number.value?_ofInt (by decide)
  have hdividend : |(-2 ^ 53 : Int)| ≤ 2 ^ 53 := by decide
  obtain ⟨r, hr, hfloor, -, -, -, hclass⟩ :=
    floored_remainder hx hy hdividend (by decide) (by decide)
  have hone : (r : ℚ) = 1 := by
    rw [hfloor]
    norm_num
  have hnext := hclass 1 (.ofInt (-2 ^ 53 + 3)) (by decide) (by
    rw [Number.value?_ofInt (by decide)]
    norm_num)
  rw [hone] at hr hnext
  exact ⟨hx, hy, hdividend, by decide, by decide, hr, hnext⟩

end Reckon
