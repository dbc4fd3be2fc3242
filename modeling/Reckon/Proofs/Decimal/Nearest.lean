import Reckon.Proofs.Decimal.Numeral
set_option autoImplicit false

namespace Reckon

theorem pow10_add (m n : Nat) : pow10 (m + n) = pow10 m * pow10 n := Nat.pow_add 10 m n

theorem pow10_le_pow10 {m n : Nat} (h : m ≤ n) : pow10 m ≤ pow10 n :=
  Nat.pow_le_pow_right (by decide) h

theorem pow2_le_pow10 (n : Nat) : pow2 (3 * n) ≤ pow10 n := by
  have height : pow2 (3 * n) = Nat.pow 8 n := Nat.pow_mul 2 3 n
  rw [height]
  exact Nat.pow_le_pow_left (by decide) n

namespace Decimal

variable {d : Decimal}

theorem ratio_of_neg (h : d.exponent < 0) :
    d.ratio = (d.digits * one, pow10 d.exponent.natAbs) := by
  simp only [ratio, if_pos h]

theorem ratio_of_nonneg (h : 0 ≤ d.exponent) :
    d.ratio = (d.digits * pow10 d.exponent.natAbs * one, 1) := by
  simp only [ratio, if_neg (Int.not_lt.2 h)]

theorem ratio_snd_pos (d : Decimal) : 0 < d.ratio.2 := by
  rcases Int.lt_or_le d.exponent 0 with h | h
  · rw [ratio_of_neg h]
    exact pow10_pos _
  · rw [ratio_of_nonneg h]
    exact Nat.one_pos

theorem overflow_le_of_le (hdigits : d.digits ≠ 0) (h : 310 ≤ d.exponent) :
    overflow ≤ nearestUnits d.ratio.1 d.ratio.2 := by
  rw [ratio_of_nonneg (by omega)]
  refine pow2_le_nearestUnits 2098 Nat.one_pos ?_
  have hpow : pow2 1024 ≤ pow10 d.exponent.natAbs := by
    have hbase : pow2 1024 ≤ pow10 310 := by decide +kernel
    exact Nat.le_trans hbase (pow10_le_pow10 (by omega))
  calc pow2 2098 * 1
    _ = pow2 1024 * one := by rw [Nat.mul_one, one, ← pow2_add]
    _ ≤ d.digits * pow10 d.exponent.natAbs * one :=
      Nat.mul_le_mul_right one
        (Nat.le_trans hpow (Nat.le_mul_of_pos_left _ (Nat.pos_of_ne_zero hdigits)))

theorem nearestUnits_eq_zero_of_lt (h : d.exponent + (Nat.log2 d.digits : Int) < -400) :
    nearestUnits d.ratio.1 d.ratio.2 = 0 := by
  rw [ratio_of_neg (by omega)]
  refine nearestUnits_eq_zero ?_
  generalize hn : d.exponent.natAbs = n
  calc 2 * (d.digits * one)
    _ < 2 * (pow2 (Nat.log2 d.digits + 1) * one) := by
      have hone : 0 < one := pow2_pos 1074
      have := Nat.mul_lt_mul_of_pos_right (lt_pow2_log2 d.digits) hone
      omega
    _ = pow2 (Nat.log2 d.digits + 1 + 1074 + 1) := by rw [one, ← pow2_add, ← pow2_succ]
    _ ≤ pow2 (3 * n) := pow2_le_pow2 (by omega)
    _ ≤ pow10 n := pow2_le_pow10 n

/-- The exponents for which no power of ten is built make no exception. -/
theorem nearest_eq_ofRatio (d : Decimal) :
    d.nearest = Number.ofRatio false d.ratio.1 d.ratio.2 := by
  have hfinite : nearestUnits d.ratio.1 d.ratio.2 = 0 →
      Number.zero false = Number.ofRatio false d.ratio.1 d.ratio.2 := by
    intro hzero
    have hlt : nearestUnits d.ratio.1 d.ratio.2 < overflow := hzero ▸ pow2_pos 2098
    rw [Number.ofRatio, dif_pos hlt]
    simp only [hzero, Number.zero]
  unfold nearest
  split
  · rename_i hdigits
    refine hfinite (nearestUnits_eq_zero ?_)
    have hnum : d.ratio.1 = 0 := by
      rcases Int.lt_or_le d.exponent 0 with h | h
      · rw [ratio_of_neg h, hdigits, Nat.zero_mul]
      · rw [ratio_of_nonneg h, hdigits, Nat.zero_mul, Nat.zero_mul]
    rw [hnum]
    exact d.ratio_snd_pos
  · rename_i hdigits
    split
    · rename_i hlarge
      have hover := Nat.not_lt.2 (overflow_le_of_le hdigits hlarge)
      simp only [Number.ofRatio, dif_neg hover]
    · split
      · rename_i hsmall
        exact hfinite (nearestUnits_eq_zero_of_lt hsmall)
      · rfl

/-- Only the number that is denoted counts, not how it is split into digits and exponent. -/
theorem nearest_congr {d d' : Decimal} (h : d.ratio.1 * d'.ratio.2 = d'.ratio.1 * d.ratio.2) :
    d.nearest = d'.nearest := by
  have hunits : nearestUnits d.ratio.1 d.ratio.2 = nearestUnits d'.ratio.1 d'.ratio.2 := by
    rw [← nearestUnits_mul_right _ _ d'.ratio_snd_pos, h, Nat.mul_comm d.ratio.2,
      nearestUnits_mul_right _ _ d.ratio_snd_pos]
  simp only [nearest_eq_ofRatio, Number.ofRatio, hunits]

theorem nearest_mul_pow10 (n k : Nat) (e : Int) :
    nearest ⟨n * pow10 k, e⟩ = nearest ⟨n, e + k⟩ := by
  apply nearest_congr
  rcases Int.lt_or_le e 0 with he | he
  · rcases Int.lt_or_le (e + k) 0 with hek | hek
    · have habs : e.natAbs = k + (e + k).natAbs := by omega
      rw [ratio_of_neg he, ratio_of_neg hek, habs, pow10_add, Nat.mul_right_comm n, Nat.mul_assoc]
    · have habs : k = (e + k).natAbs + e.natAbs := by omega
      rw [ratio_of_neg he, ratio_of_nonneg hek]
      have hpow : pow10 k = pow10 (e + k).natAbs * pow10 e.natAbs := by rw [← pow10_add, ← habs]
      rw [hpow, Nat.mul_one, ← Nat.mul_assoc n, Nat.mul_right_comm _ _ one]
  · have hek : 0 ≤ e + k := by omega
    have habs : (e + k).natAbs = k + e.natAbs := by omega
    rw [ratio_of_nonneg he, ratio_of_nonneg hek, habs, pow10_add, ← Nat.mul_assoc n]

/-- The place of the first digit, counted from the point: so many places are before the point, or
so many zeros after it. -/
def point (d : Decimal) : Int := d.exponent + ((Nat.toDigits 10 d.digits).length : Int)

theorem lt_pow10_length (n : Nat) : n < pow10 (Nat.toDigits 10 n).length :=
  (Nat.length_toDigits_le_iff (by decide) Nat.length_toDigits_pos).1 (Nat.le_refl _)

theorem pow10_length_le {n : Nat} (hn : n ≠ 0) : pow10 ((Nat.toDigits 10 n).length - 1) ≤ n := by
  by_cases hlength : (Nat.toDigits 10 n).length - 1 = 0
  · rw [hlength]
    exact Nat.one_le_iff_ne_zero.2 hn
  · have hlonger : ¬ (Nat.toDigits 10 n).length ≤ (Nat.toDigits 10 n).length - 1 := by omega
    rw [Nat.length_toDigits_le_iff (by decide) (by omega)] at hlonger
    exact Nat.le_of_not_lt hlonger

theorem ratio_le_of_point_le {d : Decimal} {places : Nat} (h : d.point ≤ places) :
    d.ratio.1 ≤ pow10 places * one * d.ratio.2 := by
  have hdigits := lt_pow10_length d.digits
  unfold point at h
  generalize (Nat.toDigits 10 d.digits).length = count at h hdigits
  rcases Int.lt_or_le d.exponent 0 with he | he
  · rw [ratio_of_neg he]
    calc d.digits * one
      _ ≤ pow10 (places + d.exponent.natAbs) * one :=
        Nat.mul_le_mul_right one (Nat.le_trans (Nat.le_of_lt hdigits) (pow10_le_pow10 (by omega)))
      _ = pow10 places * one * pow10 d.exponent.natAbs := by
        rw [pow10_add, Nat.mul_right_comm]
  · rw [ratio_of_nonneg he, Nat.mul_one]
    refine Nat.mul_le_mul_right one ?_
    calc d.digits * pow10 d.exponent.natAbs
      _ ≤ pow10 count * pow10 d.exponent.natAbs := Nat.mul_le_mul_right _ (Nat.le_of_lt hdigits)
      _ ≤ pow10 places := by
        rw [← pow10_add]
        exact pow10_le_pow10 (by omega)

theorem le_ratio_of_lt_point {d : Decimal} {places : Nat} (hne : d.digits ≠ 0)
    (h : places < d.point) : pow10 places * one * d.ratio.2 ≤ d.ratio.1 := by
  have hdigits := pow10_length_le hne
  have hpos : 0 < (Nat.toDigits 10 d.digits).length := Nat.length_toDigits_pos
  unfold point at h
  generalize (Nat.toDigits 10 d.digits).length = count at h hdigits hpos
  rcases Int.lt_or_le d.exponent 0 with he | he
  · rw [ratio_of_neg he]
    calc pow10 places * one * pow10 d.exponent.natAbs
      _ = pow10 (places + d.exponent.natAbs) * one := by
        rw [pow10_add, Nat.mul_right_comm]
      _ ≤ d.digits * one :=
        Nat.mul_le_mul_right one (Nat.le_trans (pow10_le_pow10 (by omega)) hdigits)
  · rw [ratio_of_nonneg he, Nat.mul_one]
    refine Nat.mul_le_mul_right one ?_
    calc pow10 places
      _ ≤ pow10 (count - 1) * pow10 d.exponent.natAbs := by
        rw [← pow10_add]
        exact pow10_le_pow10 (by omega)
      _ ≤ d.digits * pow10 d.exponent.natAbs := Nat.mul_le_mul_right _ hdigits

theorem representable_pow10 {places : Nat} (h : places ≤ 22) :
    Representable (pow10 places * one) := by
  refine ⟨Nat.pow 5 places, places + 1074, ?_, by omega, ?_⟩
  · exact Nat.lt_of_le_of_lt (Nat.pow_le_pow_right (by decide) h) (by decide)
  · have hfive := mul_pow5_mul_pow2 1 places
    rw [Nat.one_mul, Nat.one_mul] at hfive
    rw [pow2_add, ← Nat.mul_assoc, hfive, one]

theorem isNegative_nearest (d : Decimal) : d.nearest.isNegative = false := by
  rw [nearest_eq_ofRatio, Number.isNegative_ofRatio]

variable {d : Decimal} {units : Nat} {negative : Bool} {h : Representable units}

theorem units_of_nearest (hnear : d.nearest = .finite negative units h) :
    negative = false ∧ units = nearestUnits d.ratio.1 d.ratio.2 := by
  rw [nearest_eq_ofRatio, Number.ofRatio] at hnear
  split at hnear
  · cases hnear
    exact ⟨rfl, rfl⟩
  · cases hnear

theorem le_pow10_of_nearest (places : Nat) (hplaces : places ≤ 22)
    (hnear : d.nearest = .finite negative units h) (hpoint : d.point ≤ places) :
    units ≤ pow10 places * one := by
  rw [(units_of_nearest hnear).2]
  exact nearestUnits_le (representable_pow10 hplaces) d.ratio_snd_pos (ratio_le_of_point_le hpoint)

theorem pow10_le_of_nearest (places : Nat) (hplaces : places ≤ 22)
    (hnear : d.nearest = .finite negative units h) (hdigits : d.digits ≠ 0)
    (hpoint : places < d.point) : pow10 places * one ≤ units := by
  rw [(units_of_nearest hnear).2]
  exact le_nearestUnits (representable_pow10 hplaces) d.ratio_snd_pos
    (le_ratio_of_lt_point hdigits hpoint)

end Decimal

end Reckon
