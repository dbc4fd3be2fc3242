import Mathlib.Algebra.Order.Round
import Reckon.Proofs.Number.Exact
set_option autoImplicit false

namespace Reckon

variable {r s : ℚ} {i j : Int}

/-- The integer nearest to a number, and the one farther from zero of two that are as near. -/
structure IsNearestInteger (r : ℚ) (i : Int) : Prop where
  nearest : ∀ j : Int, |r - i| ≤ |r - j|
  away : ∀ j : Int, j ≠ i → |r - j| = |r - i| → |j| < |i|

namespace IsNearestInteger

theorem of_abs_sub_le (hle : |r - i| ≤ 1 / 2) (htie : |r - i| = 1 / 2 → |r| < |(i : ℚ)|) :
    IsNearestInteger r i := by
  have hfar : ∀ j : Int, j ≠ i → 1 ≤ |r - j| + |r - i| := by
    intro j hne
    have hgap : (1 : ℚ) ≤ |(j : ℚ) - i| := by exact_mod_cast Int.one_le_abs (sub_ne_zero.2 hne)
    have htriangle := abs_sub_le (j : ℚ) r i
    rw [abs_sub_comm (j : ℚ) r] at htriangle
    exact hgap.trans htriangle
  constructor
  · intro j
    rcases eq_or_ne j i with rfl | hne
    · exact le_rfl
    · have := hfar j hne
      linarith
  · intro j hne heq
    have hhalf : |r - i| = 1 / 2 := by
      have := hfar j hne
      linarith
    -- The other one lies as far on the other side of the number, so next to this one toward zero.
    have hopposite : (j : ℚ) = 2 * r - i := by
      rcases abs_eq_abs.1 heq with hsame | hopposite
      · exact absurd (by exact_mod_cast sub_right_inj.1 hsame) hne
      · linarith
    have hmagnitude := abs_lt.1 (htie hhalf)
    have hlt : |(j : ℚ)| < |(i : ℚ)| := by
      rcases lt_trichotomy i 0 with hneg | rfl | hpos
      · have hi : (i : ℚ) ≤ -1 := by exact_mod_cast Int.le_sub_one_of_lt hneg
        rw [abs_of_nonpos (by linarith : (i : ℚ) ≤ 0)] at hmagnitude ⊢
        have hr : r - i = 1 / 2 := by rw [← hhalf, abs_of_nonneg (by linarith)]
        rw [abs_lt]
        constructor <;> linarith
      · simp only [Int.cast_zero, abs_zero] at hmagnitude
        linarith
      · have hi : (1 : ℚ) ≤ i := by exact_mod_cast hpos
        rw [abs_of_nonneg (by linarith : (0 : ℚ) ≤ i)] at hmagnitude ⊢
        have hr : -(r - i) = 1 / 2 := by rw [← hhalf, abs_of_nonpos (by linarith)]
        rw [abs_lt]
        constructor <;> linarith
    exact_mod_cast hlt

theorem neg (h : IsNearestInteger r i) : IsNearestInteger (-r) (-i) := by
  have hflip : ∀ k : Int, |-r - (k : ℚ)| = |r - (-k : Int)| := by
    intro k
    rw [← abs_neg, Int.cast_neg]
    congr 1
    ring
  constructor
  · intro j
    rw [hflip, hflip, neg_neg]
    exact h.nearest (-j)
  · intro j hne heq
    rw [hflip, hflip, neg_neg] at heq
    have haway := h.away (-j) (by omega) heq
    rwa [abs_neg] at haway ⊢

theorem abs_sub_le_half (h : IsNearestInteger r i) : |i - r| ≤ 1 / 2 := by
  rw [abs_sub_comm]
  exact (h.nearest (round r)).trans (abs_sub_round r)

theorem le_of_le (hi : IsNearestInteger r i) (hj : IsNearestInteger s j) (hle : r ≤ s) :
    i ≤ j := by
  by_contra hlt
  have hgap : (0 : ℚ) < i - j := sub_pos.2 (Int.cast_lt.2 (not_le.1 hlt))
  have hr : (i : ℚ) + j ≤ 2 * r := by
    have hsquare := sq_le_sq.2 (hi.nearest j)
    nlinarith
  have hs : 2 * s ≤ i + j := by
    have hsquare := sq_le_sq.2 (hj.nearest i)
    nlinarith
  -- Both numbers are the middle of the two integers, which are equally near.
  have heq : |r - j| = |r - i| := by
    rw [← abs_neg (r - i)]
    congr 1
    linarith
  have heq' : |s - i| = |s - j| := by
    rw [← abs_neg (s - j)]
    congr 1
    linarith
  have hlow := hi.away j (by omega) heq
  have hhigh := hj.away i (by omega) heq'
  omega

end IsNearestInteger

namespace Number

def halfAway (r : ℚ) : Int :=
  if 1 / 2 ≤ |r - truncate r| then truncate r + (if r < 0 then -1 else 1) else truncate r

theorem halfAway_neg (r : ℚ) : halfAway (-r) = -halfAway r := by
  have hrest : |-r - (-truncate r : Int)| = |r - truncate r| := by
    rw [← abs_neg, Int.cast_neg]
    congr 1
    ring
  unfold halfAway
  rw [truncate_neg, hrest]
  split_ifs with hhalf hneg hpos hpos
  · linarith
  · omega
  · omega
  · obtain rfl : r = 0 := by linarith
    norm_num [truncate] at hhalf
  · rfl

theorem isNearestInteger_of_nonneg (hr : 0 ≤ r) : IsNearestInteger r (halfAway r) := by
  have htruncate : truncate r = ⌊r⌋ := if_pos hr
  have hlow := Int.floor_le r
  have hhigh := Int.lt_floor_add_one r
  have hrest : |r - truncate r| = r - ⌊r⌋ := by
    rw [htruncate, abs_of_nonneg (sub_nonneg.2 hlow)]
  unfold halfAway
  rw [hrest, htruncate, if_neg (not_lt.2 hr)]
  split_ifs with hhalf
  · have hdist : |r - (⌊r⌋ + 1 : Int)| = ⌊r⌋ + 1 - r := by
      rw [abs_sub_comm]
      push_cast
      exact abs_of_nonneg (by linarith)
    refine .of_abs_sub_le (by linarith) fun _ => ?_
    push_cast
    rw [abs_of_nonneg hr, abs_of_nonneg (by linarith)]
    exact hhigh
  · have hdist : |r - ⌊r⌋| = r - ⌊r⌋ := abs_of_nonneg (by linarith)
    exact .of_abs_sub_le (by linarith) fun htie => by linarith

theorem isNearestInteger_halfAway (r : ℚ) : IsNearestInteger r (halfAway r) := by
  rcases le_total 0 r with hr | hr
  · exact isNearestInteger_of_nonneg hr
  · have hnearest := (isNearestInteger_of_nonneg (neg_nonneg.2 hr)).neg
    rwa [halfAway_neg, neg_neg, neg_neg] at hnearest

end Number

/-- From `2 ^ 52` on there are no digits after the point. -/
theorem Representable.one_dvd {units : Nat} (h : Representable units) (hle : pow2 1126 ≤ units) :
    one ∣ units := by
  have hlog := lt_of_pow2_lt (Nat.lt_of_le_of_lt hle (lt_pow2_log2 units))
  have hplace : 1074 ≤ lastPlace units := by
    unfold lastPlace
    omega
  exact Nat.dvd_trans (pow2_dvd_pow2 hplace) h.pow2_lastPlace_dvd

theorem Representable.whole {units : Nat} (h : Representable units) :
    Representable (units / one * one) := by
  rcases Nat.lt_or_ge units (pow2 1126) with hlt | hge
  · have hbound : pow2 1126 = pow2 52 * one := by rw [one, ← pow2_add]
    have hpos : 0 < one := pow2_pos 1074
    have hquotient : units / one < pow2 52 := (Nat.div_lt_iff_lt_mul hpos).2 (hbound ▸ hlt)
    exact Number.representable_mul_one (Nat.le_trans hquotient.le (pow2_le_pow2 (by decide)))
  · rwa [Nat.div_mul_cancel (h.one_dvd hge)]

theorem Representable.rest {units : Nat} (h : Representable units) :
    Representable (units % one) := by
  obtain ⟨m, place, hm, hplace, rfl⟩ := h
  rcases Nat.le_total place 1074 with hle | hge
  · have hone : one = pow2 (1074 - place) * pow2 place := by
      rw [one, ← pow2_add, Nat.sub_add_cancel hle]
    rw [hone, Nat.mul_mod_mul_right]
    exact ⟨m % pow2 (1074 - place), place, Nat.lt_of_le_of_lt (Nat.mod_le _ _) hm, hplace, rfl⟩
  · have hdvd : one ∣ m * pow2 place := Nat.dvd_mul_left_of_dvd (pow2_dvd_pow2 hge) m
    rw [Nat.mod_eq_zero_of_dvd hdvd]
    exact representable_zero

namespace Number

variable {x : Number}

theorem value?_trunc (hx : x.value? = some r) : x.trunc.value? = some (truncate r : ℚ) := by
  obtain ⟨negative, units, h, rfl, hunits⟩ := exists_finite hx
  have hr : r = signed negative units / one := eq_div_of_mul_eq one_pos.ne' hunits.symm
  change (ofRatio negative (units / one * one) 1).value? = _
  rw [ofRatio_one _ h.whole]
  refine value?_eq h.whole ?_
  rw [signed_mul, hr, truncate_signed, Int.cast_mul, Int.cast_natCast]

theorem isExact_sub_truncate (hx : x.value? = some r) : IsExact (r - truncate r) := by
  obtain ⟨negative, units, h, rfl, hunits⟩ := exists_finite hx
  have hr : r = signed negative units / one := eq_div_of_mul_eq one_pos.ne' hunits.symm
  have hsum : signed negative units =
      signed negative (units / one) * one + signed negative (units % one) := by
    rw [← signed_mul, ← signed_add, Nat.div_add_mod']
  refine ⟨finite negative (units % one) h.rest, value?_eq h.rest ?_⟩
  rw [sub_mul, ← hunits, hr, truncate_signed, hsum]
  push_cast
  ring

theorem truncate_eq_of_le (hx : x.value? = some r) (hr : 2 ^ 52 ≤ |r|) : (truncate r : ℚ) = r := by
  obtain ⟨negative, units, h, rfl, hunits⟩ := exists_finite hx
  have hle : pow2 1126 ≤ units := by
    have hpow : pow2 1126 = pow2 52 * one := by rw [one, ← pow2_add]
    have hbase : ((pow2 52 : Nat) : ℚ) = 2 ^ 52 := by norm_num [pow2]
    rw [hpow, ← Nat.cast_le (α := ℚ), ← abs_mul_one hunits, Nat.cast_mul, hbase]
    exact mul_le_mul_of_nonneg_right hr one_pos.le
  have hr : r = signed negative units / one := eq_div_of_mul_eq one_pos.ne' hunits.symm
  have hwhole : signed negative (units / one) * (one : Int) = signed negative units := by
    rw [← signed_mul, Nat.div_mul_cancel (h.one_dvd hle)]
  rw [hr, truncate_signed, ← hwhole, Int.cast_mul, Int.cast_natCast,
    mul_div_cancel_right₀ _ one_pos.ne']

theorem value?_half : half.value? = some (1 / 2) := by
  have hone : one = pow2 1073 * 2 := (pow2_succ 1073).trans (Nat.mul_comm ..)
  have hfits : Representable (pow2 1073) := ⟨1, 1073, by decide, by decide, (Nat.one_mul _).symm⟩
  rw [half, hone, ofRatio_mul _ hfits (by decide)]
  refine value?_eq hfits ?_
  rw [hone]
  push_cast [signed]
  ring

theorem value?_sign (hx : x.value? = some r) (hr : r ≠ 0) :
    x.sign.value? = some ((if r < 0 then -1 else 1 : Int) : ℚ) := by
  have hsign := isNegative_of_value? hx hr
  have hzero := isZero_of_value? hx
  obtain ⟨negative, units, h, rfl, -⟩ := exists_finite hx
  have hunits : units ≠ 0 := by
    rw [decide_eq_false hr] at hzero
    simpa [isZero] using hzero
  have hfits : Representable one := by
    simpa using representable_mul_one (k := 1) (pow2_pos 53)
  obtain rfl : negative = decide (r < 0) := hsign
  rw [sign, if_neg hunits, ofRatio_one _ hfits]
  refine value?_eq hfits ?_
  generalize one = unit
  by_cases hneg : r < 0 <;> simp [signed, hneg]

/-- The test sees exactly what is cut off. What is flushed on the way is less than half of one. -/
theorem lessEqual_half_iff (hx : x.value? = some r) :
    lessEqual half (flushed₂ sub x x.trunc).abs = true ↔ 1 / 2 ≤ |r - truncate r| := by
  have hwhole := value?_negate (value?_flush_intCast (value?_trunc hx))
  have hcompare : ∀ d : Number, ∀ q : ℚ, d.value? = some q →
      (lessEqual half d.flush.abs = true ↔ 1 / 2 ≤ |q|) := by
    intro d q hd
    rcases value?_flush hd with hflush | ⟨hflush, hsmall⟩
    · exact lessEqual_iff value?_half (value?_abs hflush)
    · have hlt := lt_half_of_mul_one_lt hsmall
      rw [lessEqual_iff value?_half (value?_abs hflush), abs_zero]
      constructor <;> intro <;> linarith
  rcases value?_flush hx with hflush | ⟨hflush, hsmall⟩
  · have hexact := isExact_sub_truncate hx
    rw [sub_eq_add_neg] at hexact ⊢
    exact hcompare _ _ (value?_add hflush hwhole hexact)
  · have hlt := lt_half_of_mul_one_lt hsmall
    have hzero : truncate r = 0 := by
      obtain ⟨hl, hu⟩ := abs_lt.1 hlt
      unfold truncate
      split_ifs with hr
      · exact Int.floor_eq_zero_iff.2 ⟨hr, by linarith⟩
      · exact Int.ceil_eq_zero_iff.2 ⟨by linarith, by linarith⟩
    rw [hzero, Int.cast_zero, neg_zero] at hwhole
    have hnothing := value?_add hflush hwhole ⟨zero false, by rw [value?_zero, add_zero]⟩
    rw [add_zero] at hnothing
    rw [hzero, Int.cast_zero, sub_zero]
    refine (hcompare _ _ hnothing).trans ?_
    rw [abs_zero]
    constructor <;> intro <;> linarith

theorem abs_truncate_le (r : ℚ) : |(truncate r : ℚ)| ≤ |r| := by
  unfold truncate
  split_ifs with hr
  · rw [abs_of_nonneg hr, abs_of_nonneg (Int.cast_nonneg (Int.floor_nonneg.2 hr))]
    exact Int.floor_le r
  · have hceil : (⌈r⌉ : ℚ) ≤ 0 := Int.cast_nonpos.2 (Int.ceil_nonpos.2 (not_le.1 hr).le)
    rw [abs_of_neg (not_le.1 hr), abs_of_nonpos hceil]
    exact neg_le_neg (Int.le_ceil r)

theorem value?_roundHalfAway (hx : x.value? = some r) :
    x.roundHalfAway.value? = some (halfAway r : ℚ) := by
  have htest := lessEqual_half_iff hx
  simp only [roundHalfAway, halfAway]
  by_cases hhalf : 1 / 2 ≤ |r - truncate r|
  · rw [if_pos (htest.2 hhalf), if_pos hhalf]
    have hr : r ≠ 0 := by
      rintro rfl
      norm_num [truncate] at hhalf
    have hlt : |r| < 2 ^ 52 := by
      by_contra hge
      rw [truncate_eq_of_le hx (not_lt.1 hge)] at hhalf
      norm_num at hhalf
    have hbound : |truncate r| < 2 ^ 52 := by exact_mod_cast (abs_truncate_le r).trans_lt hlt
    refine value?_flushed₂_add (value?_trunc hx) (value?_sign hx hr) ?_
    rw [abs_lt] at hbound
    rw [abs_le]
    split_ifs <;> constructor <;> omega
  · rw [if_neg (mt htest.1 hhalf), if_neg hhalf]
    exact value?_trunc hx

theorem isNegative_trunc (x : Number) : x.trunc.isNegative = x.isNegative := by
  cases x with
  | nan | infinite _ => rfl
  | finite negative units h => exact isNegative_ofRatio ..

theorem halfAway_ne_zero (hhalf : 1 / 2 ≤ |r - truncate r|) :
    r ≠ 0 ∧ halfAway r ≠ 0 ∧ (halfAway r < 0 ↔ r < 0) := by
  rw [halfAway, if_pos hhalf]
  rcases lt_trichotomy r 0 with hneg | rfl | hpos
  · have hceil := Int.ceil_nonpos.2 hneg.le
    rw [truncate, if_neg (not_le.2 hneg), if_pos hneg]
    exact ⟨hneg.ne, by omega, iff_of_true (by omega) hneg⟩
  · norm_num [truncate] at hhalf
  · have hfloor := Int.floor_nonneg.2 hpos.le
    rw [truncate, if_pos hpos.le, if_neg (not_lt.2 hpos.le)]
    exact ⟨hpos.ne', by omega, iff_of_false (by omega) (not_lt.2 hpos.le)⟩

theorem isNegative_roundHalfAway (hx : x.value? = some r) :
    x.roundHalfAway.isNegative = x.isNegative := by
  by_cases hhalf : 1 / 2 ≤ |r - truncate r|
  · obtain ⟨hr, hne, hsign⟩ := halfAway_ne_zero hhalf
    rw [isNegative_of_value? (value?_roundHalfAway hx) (Int.cast_ne_zero.2 hne),
      isNegative_of_value? hx hr]
    exact decide_eq_decide.2 (Int.cast_lt_zero.trans hsign)
  · rw [roundHalfAway, if_neg (mt (lessEqual_half_iff hx).1 hhalf)]
    exact x.isNegative_trunc

theorem isNegative_negate (hx : x.value? = some r) : x.negate.isNegative = !x.isNegative := by
  obtain ⟨negative, units, h, rfl, -⟩ := exists_finite hx
  rfl

theorem roundHalfAway_negate (hx : x.value? = some r) :
    x.negate.roundHalfAway = x.roundHalfAway.negate := by
  have hflipped := value?_roundHalfAway (value?_negate hx)
  have hrounded := value?_roundHalfAway hx
  rw [halfAway_neg, Int.cast_neg] at hflipped
  refine eq_of_value? hflipped (value?_negate hrounded) ?_
  rw [isNegative_roundHalfAway (value?_negate hx), isNegative_negate hx,
    isNegative_negate hrounded, isNegative_roundHalfAway hx]

theorem roundHalfAway_eq_self (hx : x.value? = some r) (hr : 2 ^ 52 ≤ |r|) :
    x.roundHalfAway = x := by
  have hwhole := truncate_eq_of_le hx hr
  have hrounded := value?_roundHalfAway hx
  have hrest : ¬ 1 / 2 ≤ |r - truncate r| := by
    rw [hwhole]
    norm_num
  rw [halfAway, if_neg hrest, hwhole] at hrounded
  exact eq_of_value? hrounded hx (isNegative_roundHalfAway hx)

end Number

/-- A finite value is rounded to the nearest integer, the one farther from zero of two that are as
near, and that integer is the exact result. -/
theorem round_half_away {x : Number} (hx : x.value? = some r) :
    let round := Operator.round.unary
    ∃ i : Int, (round x).value? = some (i : ℚ) ∧ IsNearestInteger r i ∧ |i - r| ≤ 1 / 2 ∧
      (2 ^ 52 ≤ |r| → round x = x) ∧ round x.negate = (round x).negate ∧
      ∀ (y : Number) (s : ℚ), y.value? = some s → r ≤ s →
        ∃ j : Int, (round y).value? = some (j : ℚ) ∧ i ≤ j := by
  intro round
  have hround : round = Number.roundHalfAway := rfl
  have hnearest := Number.isNearestInteger_halfAway r
  rw [hround]
  refine ⟨Number.halfAway r, Number.value?_roundHalfAway hx, hnearest, hnearest.abs_sub_le_half,
    Number.roundHalfAway_eq_self hx, Number.roundHalfAway_negate hx, fun y s hy hle => ?_⟩
  exact ⟨Number.halfAway s, Number.value?_roundHalfAway hy,
    hnearest.le_of_le (Number.isNearestInteger_halfAway s) hle⟩

theorem round_half_away_ties :
    let below : Number := .finite false ((pow2 53 - 1) * pow2 1020)
      ⟨pow2 53 - 1, 1020, by decide, by decide, rfl⟩
    let tie : Number := .finite true (5 * pow2 1073) ⟨5, 1073, by decide, by decide, rfl⟩
    below.value? = some ((2 ^ 53 - 1) / 2 ^ 54) ∧ tie.value? = some (-5 / 2) ∧
      (Operator.round.unary below).value? = some 0 ∧
      (Operator.round.unary tie).value? = some (-3) ∧
      Operator.round.unary tie.negate = (Operator.round.unary tie).negate := by
  intro below tie
  have hbelow : below.value? = some ((2 ^ 53 - 1) / 2 ^ 54) := by
    have hone : one = pow2 54 * pow2 1020 := by rw [one, ← pow2_add]
    have hdigits : ((pow2 53 - 1 : Nat) : ℚ) = 2 ^ 53 - 1 := by norm_num [pow2]
    have hplace : (pow2 54 : ℚ) = 2 ^ 54 := by norm_num [pow2]
    refine Number.value?_eq _ ?_
    simp only [Number.signed, Bool.false_eq_true, if_false, Nat.cast_mul, Int.cast_mul,
      Int.cast_natCast, hone, hdigits, hplace]
    ring
  have htie : tie.value? = some (-5 / 2) := by
    have hone : one = 2 * pow2 1073 := pow2_succ 1073
    refine Number.value?_eq _ ?_
    simp only [Number.signed, if_true, Nat.cast_mul, Nat.cast_ofNat, Int.cast_neg, Int.cast_mul,
      Int.cast_ofNat, Int.cast_natCast, hone]
    ring
  obtain ⟨i, hi, -, hhalf, -⟩ := round_half_away hbelow
  obtain ⟨j, hj, hnearest, hhalf', -, hnegate, -⟩ := round_half_away htie
  have hzero : i = 0 := by
    obtain ⟨hl, hu⟩ := abs_le.1 hhalf
    have hlow : (-1 : ℚ) < i := by linarith
    have hhigh : (i : ℚ) < 1 := by linarith
    have hlow : -1 < i := by exact_mod_cast hlow
    have hhigh : i < 1 := by exact_mod_cast hhigh
    omega
  have hthree : j = -3 := by
    obtain ⟨hl, hu⟩ := abs_le.1 hhalf'
    have hlow : (-4 : ℚ) < j := by linarith
    have hhigh : (j : ℚ) < -1 := by linarith
    have hlow : -4 < j := by exact_mod_cast hlow
    have hhigh : j < -1 := by exact_mod_cast hhigh
    -- Were it `-2`, then `-3` would be as near and no farther from zero.
    have hne : j ≠ -2 := by
      rintro rfl
      have haway := hnearest.away (-3) (by decide) (by norm_num [abs])
      norm_num at haway
    omega
  subst hzero hthree
  exact ⟨hbelow, htie, by exact_mod_cast hi, by exact_mod_cast hj, hnegate⟩

end Reckon
