import Reckon.Proofs.Number.Value
/-!
Operations without rounding, by the exact values of the operands. A sum that the format holds is not
rounded (`value?_flushed₂_add`), the order of numbers is that of their values (`lessEqual_iff`), and
the value together with the sign is the number (`eq_of_value?`).
-/
set_option autoImplicit false

namespace Reckon.Number

/-- The format holds the number without rounding. -/
def IsExact (r : ℚ) : Prop := ∃ x : Number, x.value? = some r

theorem one_pos : (0 : ℚ) < one := Nat.cast_pos.2 (pow2_pos 1074)

theorem signed_not (negative : Bool) (units : Nat) :
    signed (!negative) units = -signed negative units := by
  cases negative <;> simp [signed]

theorem natAbs_signed (negative : Bool) (units : Nat) : (signed negative units).natAbs = units := by
  cases negative <;> simp [signed]

theorem signed_add (negative : Bool) (m n : Nat) :
    signed negative (m + n) = signed negative m + signed negative n := by
  cases negative with
  | false => simp [signed]
  | true =>
    simp only [signed, if_true]
    omega

theorem signed_mul (negative : Bool) (m n : Nat) :
    signed negative (m * n) = signed negative m * n := by
  cases negative <;> simp [signed]

variable {x y : Number} {p q r : ℚ} {i j : Int}

theorem exists_finite (hx : x.value? = some r) :
    ∃ negative units, ∃ h : Representable units,
      x = finite negative units h ∧ (signed negative units : ℚ) = r * one := by
  cases x with
  | nan | infinite _ => cases hx
  | finite negative units h =>
    refine ⟨negative, units, h, rfl, ?_⟩
    rw [← Option.some.inj hx, div_mul_cancel₀ _ one_pos.ne']

theorem abs_mul_one {negative : Bool} {units : Nat} (hr : (signed negative units : ℚ) = r * one) :
    |r| * one = units := by
  rw [← abs_of_pos one_pos, ← abs_mul, ← hr, ← Int.cast_abs, Int.abs_eq_natAbs, natAbs_signed,
    Int.cast_natCast]

theorem value?_eq {negative : Bool} {units : Nat} (h : Representable units)
    (hr : (signed negative units : ℚ) = r * one) : (finite negative units h).value? = some r := by
  rw [value?, hr, mul_div_cancel_right₀ _ one_pos.ne']

theorem isNegative_of_value? (hx : x.value? = some r) (hr : r ≠ 0) :
    x.isNegative = decide (r < 0) := by
  obtain ⟨negative, units, h, rfl, hunits⟩ := exists_finite hx
  cases negative with
  | false =>
    have hpos : 0 ≤ r * one := by
      rw [← hunits]
      exact Int.cast_nonneg (Int.natCast_nonneg units)
    exact (decide_eq_false (not_lt.2 (nonneg_of_mul_nonneg_left hpos one_pos))).symm
  | true =>
    have hneg : r * one ≤ 0 := by
      rw [← hunits]
      exact Int.cast_nonpos.2 (Int.neg_nonpos_of_nonneg (Int.natCast_nonneg units))
    have hle : r ≤ 0 := nonpos_of_mul_nonpos_left hneg one_pos
    exact (decide_eq_true (lt_of_le_of_ne hle hr)).symm

theorem isZero_of_value? (hx : x.value? = some r) : x.isZero = decide (r = 0) := by
  obtain ⟨negative, units, h, rfl, hunits⟩ := exists_finite hx
  have hzero : (signed negative units : ℚ) = 0 ↔ r = 0 := by
    rw [hunits, mul_eq_zero, or_iff_left one_pos.ne']
  rw [Int.cast_eq_zero, ← Int.natAbs_eq_zero, natAbs_signed] at hzero
  rw [isZero, Bool.eq_iff_iff]
  simpa using hzero

theorem eq_of_value? (hx : x.value? = some r) (hy : y.value? = some r)
    (hsign : x.isNegative = y.isNegative) : x = y := by
  obtain ⟨a, u, hu, rfl, hur⟩ := exists_finite hx
  obtain ⟨b, v, hv, rfl, hvr⟩ := exists_finite hy
  obtain rfl : a = b := hsign
  have hsame : signed a u = signed a v := Int.cast_injective (hur.trans hvr.symm)
  obtain rfl : u = v := by rw [← natAbs_signed a u, hsame, natAbs_signed]
  rfl

theorem ofRatio_one (negative : Bool) {units : Nat} (h : Representable units) :
    ofRatio negative units 1 = finite negative units h := by
  rw [← ofRatio_mul negative h Nat.one_pos, Nat.mul_one]

theorem value?_zero (negative : Bool) : (zero negative).value? = some 0 := by
  refine value?_eq representable_zero ?_
  rw [zero_mul, Int.cast_eq_zero]
  cases negative <;> rfl

theorem value?_negate (hx : x.value? = some r) : x.negate.value? = some (-r) := by
  obtain ⟨negative, units, h, rfl, hunits⟩ := exists_finite hx
  refine value?_eq h ?_
  rw [signed_not, Int.cast_neg, hunits, neg_mul]

theorem value?_abs (hx : x.value? = some r) : x.abs.value? = some |r| := by
  obtain ⟨negative, units, h, rfl, hunits⟩ := exists_finite hx
  refine value?_eq h ?_
  rw [abs_mul_one hunits]
  simp [signed]

theorem lessEqual_iff (hx : x.value? = some p) (hy : y.value? = some q) :
    x.lessEqual y = true ↔ p ≤ q := by
  obtain ⟨a, u, hu, rfl, hup⟩ := exists_finite hx
  obtain ⟨b, v, hv, rfl, hvq⟩ := exists_finite hy
  have horder : signed a u ≤ signed b v ↔ p ≤ q := by
    rw [← Int.cast_le (R := ℚ), hup, hvq, mul_le_mul_iff_left₀ one_pos]
  simp only [lessEqual, less, equal, Bool.or_eq_true, decide_eq_true_eq, beq_iff_eq]
  rw [← horder, le_iff_lt_or_eq]

theorem IsExact.representable (hr : IsExact r) (hi : (i : ℚ) = r * one) :
    Representable i.natAbs := by
  obtain ⟨z, hz⟩ := hr
  obtain ⟨negative, units, h, rfl, hunits⟩ := exists_finite hz
  obtain rfl : signed negative units = i := Int.cast_injective (hunits.trans hi.symm)
  rwa [natAbs_signed]

theorem value?_add (hx : x.value? = some p) (hy : y.value? = some q) (hsum : IsExact (p + q)) :
    (x.add y).value? = some (p + q) := by
  obtain ⟨a, u, hu, rfl, hup⟩ := exists_finite hx
  obtain ⟨b, v, hv, rfl, hvq⟩ := exists_finite hy
  have hunits : ((signed a u + signed b v : Int) : ℚ) = (p + q) * one := by
    rw [Int.cast_add, hup, hvq, add_mul]
  have hfits := hsum.representable hunits
  simp only [add]
  generalize signed a u + signed b v = sum at hunits hfits ⊢
  split
  · rename_i hzero
    rw [hzero, Int.cast_zero, eq_comm, mul_eq_zero, or_iff_left one_pos.ne'] at hunits
    rw [hunits]
    exact value?_zero _
  · rw [ofRatio_one _ hfits]
    refine value?_eq hfits ?_
    rw [← hunits, ← Nat.mul_one sum.natAbs, signed_natAbs, Nat.cast_one, mul_one]

theorem value?_flush (hx : x.value? = some r) :
    x.flush.value? = some r ∨ x.flush.value? = some 0 ∧ |r| * one < leastNormal := by
  obtain ⟨negative, units, h, rfl, hunits⟩ := exists_finite hx
  by_cases hsmall : units < leastNormal
  · right
    refine ⟨?_, by rw [abs_mul_one hunits]; exact_mod_cast hsmall⟩
    simpa only [flush, hsmall, if_true] using value?_zero negative
  · left
    simpa only [flush, hsmall, if_false] using hx

theorem lt_half_of_mul_one_lt (h : r * one < leastNormal) : r < 1 / 2 := by
  have hpow : (leastNormal : ℚ) ≤ 1 / 2 * one := by
    have hone : one = 2 * pow2 1073 := pow2_succ 1073
    have hle : (leastNormal : ℚ) ≤ pow2 1073 := Nat.cast_le.2 (pow2_le_pow2 (by decide))
    rw [hone]
    push_cast
    linarith
  exact lt_of_mul_lt_mul_right (h.trans_le hpow) one_pos.le

theorem value?_flush_intCast (hx : x.value? = some (i : ℚ)) : x.flush.value? = some (i : ℚ) := by
  rcases value?_flush hx with hflush | ⟨hflush, hsmall⟩
  · exact hflush
  · have hlt : |(i : ℚ)| < 1 / 2 := lt_half_of_mul_one_lt hsmall
    have hzero : i = 0 := by
      by_contra hne
      have hle : (1 : ℚ) ≤ |(i : ℚ)| := by exact_mod_cast Int.one_le_abs hne
      linarith
    rw [hflush, hzero, Int.cast_zero]

theorem isExact_intCast (hi : |i| ≤ 2 ^ 53) : IsExact i := by
  have hbound : i.natAbs ≤ pow2 53 := by
    have hpow : pow2 53 = 2 ^ 53 := rfl
    rw [Int.abs_eq_natAbs] at hi
    omega
  refine ⟨ofInt i, ?_⟩
  rw [ofInt_eq hbound]
  refine value?_eq _ ?_
  rw [signed_natAbs, Int.cast_mul, Int.cast_natCast]

theorem value?_flushed₂_add (hx : x.value? = some (i : ℚ)) (hy : y.value? = some (j : ℚ))
    (hsum : |i + j| ≤ 2 ^ 53) : (flushed₂ add x y).value? = some ((i + j : Int) : ℚ) := by
  have hexact : IsExact ((i : ℚ) + j) := by exact_mod_cast isExact_intCast hsum
  have hadd := value?_add (value?_flush_intCast hx) (value?_flush_intCast hy) hexact
  rw [← Int.cast_add] at hadd
  exact value?_flush_intCast hadd

end Reckon.Number
