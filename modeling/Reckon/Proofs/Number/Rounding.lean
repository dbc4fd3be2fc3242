import Reckon.Number.Basic
set_option autoImplicit false

namespace Reckon

theorem roundQuotient_mul (k : Nat) {den : Nat} (hden : 0 < den) :
    roundQuotient (k * den) den = k := by
  simp [roundQuotient, Nat.mul_div_cancel k hden, hden]

theorem roundQuotient_mul_right (num den : Nat) {c : Nat} (hc : 0 < c) :
    roundQuotient (num * c) (den * c) = roundQuotient num den := by
  have htwice : 2 * (num % den * c) = 2 * (num % den) * c := (Nat.mul_assoc ..).symm
  simp only [roundQuotient, Nat.mul_div_mul_right _ _ hc, Nat.mul_mod_mul_right, htwice,
    Nat.mul_lt_mul_right hc]

theorem roundQuotient_mono {num num' : Nat} (h : num ≤ num') (den : Nat) :
    roundQuotient num den ≤ roundQuotient num' den := by
  have hbounds := roundQuotient_bounds num den
  have hbounds' := roundQuotient_bounds num' den
  rcases Nat.lt_or_eq_of_le (Nat.div_le_div_right (c := den) h) with hlt | heq
  · omega
  · have hrest : num % den ≤ num' % den := by
      have hnum := Nat.div_add_mod num den
      have hnum' := Nat.div_add_mod num' den
      rw [heq] at hnum
      omega
    simp only [roundQuotient, heq]
    (repeat' split) <;> omega

theorem log2_le_log2 {u v : Nat} (h : u ≤ v) : Nat.log2 u ≤ Nat.log2 v := by
  by_cases hu : u = 0
  · simp [hu]
  · have hlt : pow2 (Nat.log2 u) < pow2 (Nat.log2 v + 1) :=
      Nat.lt_of_le_of_lt (Nat.le_trans (pow2_log2_le hu) h) (lt_pow2_log2 v)
    have := lt_of_pow2_lt hlt
    omega

theorem nearestUnits_mono {num num' : Nat} (h : num ≤ num') (den : Nat) :
    nearestUnits num den ≤ nearestUnits num' den := by
  have hplace : lastPlace (num / den) ≤ lastPlace (num' / den) :=
    Nat.sub_le_sub_right (log2_le_log2 (Nat.div_le_div_right h)) 52
  rcases Nat.lt_or_eq_of_le hplace with hlt | heq
  · -- The greater quotient has its last digit at a higher place, so a power of two is in between.
    calc nearestUnits num den
      _ ≤ pow2 53 * pow2 (lastPlace (num / den)) :=
        Nat.mul_le_mul_right _ (roundQuotient_le_pow2 num den)
      _ ≤ pow2 52 * pow2 (lastPlace (num' / den)) := by
        rw [← pow2_add, ← pow2_add]
        exact pow2_le_pow2 (by omega)
      _ ≤ nearestUnits num' den := Nat.mul_le_mul_right _ (pow2_le_roundQuotient (by omega))
  · unfold nearestUnits
    dsimp only
    rw [heq]
    exact Nat.mul_le_mul_right _ (roundQuotient_mono h _)

theorem nearestUnits_mul_right (num den : Nat) {c : Nat} (hc : 0 < c) :
    nearestUnits (num * c) (den * c) = nearestUnits num den := by
  unfold nearestUnits
  dsimp only
  rw [Nat.mul_div_mul_right _ _ hc, Nat.mul_right_comm, roundQuotient_mul_right _ _ hc]

theorem lastPlace_le {m place : Nat} (hm : m < pow2 53) : lastPlace (m * pow2 place) ≤ place := by
  by_cases h0 : m * pow2 place = 0
  · simp [lastPlace, h0]
  · have hlt : pow2 (Nat.log2 (m * pow2 place)) < pow2 (53 + place) := by
      refine Nat.lt_of_le_of_lt (pow2_log2_le h0) ?_
      rw [pow2_add]
      exact Nat.mul_lt_mul_of_pos_right hm (pow2_pos place)
    have hlog := lt_of_pow2_lt hlt
    unfold lastPlace
    omega

theorem Representable.pow2_lastPlace_dvd {units : Nat} (h : Representable units) :
    pow2 (lastPlace units) ∣ units := by
  obtain ⟨m, place, hm, -, rfl⟩ := h
  have hle : lastPlace (m * pow2 place) ≤ place := lastPlace_le hm
  generalize lastPlace (m * pow2 place) = p at hle ⊢
  obtain ⟨n, rfl⟩ := Nat.exists_eq_add_of_le hle
  rw [pow2_add]
  exact Nat.dvd_mul_left_of_dvd (Nat.dvd_mul_right _ _) m

theorem nearestUnits_mul_of_dvd {units den : Nat} (h : pow2 (lastPlace units) ∣ units)
    (hden : 0 < den) : nearestUnits (units * den) den = units := by
  obtain ⟨k, hk⟩ := h
  unfold nearestUnits
  dsimp only
  rw [Nat.mul_div_cancel units hden]
  have hpos : 0 < den * pow2 (lastPlace units) := Nat.mul_pos hden (pow2_pos _)
  have hnum : units * den = k * (den * pow2 (lastPlace units)) := by
    calc units * den = pow2 (lastPlace units) * k * den := by rw [← hk]
      _ = k * (den * pow2 (lastPlace units)) := by
        rw [Nat.mul_comm (pow2 _) k, Nat.mul_assoc, Nat.mul_comm (pow2 _) den]
  rw [hnum, roundQuotient_mul k hpos, Nat.mul_comm, ← hk]

theorem nearestUnits_mul {units den : Nat} (h : Representable units) (hden : 0 < den) :
    nearestUnits (units * den) den = units :=
  nearestUnits_mul_of_dvd h.pow2_lastPlace_dvd hden

theorem nearestUnits_le {num den units : Nat} (h : Representable units) (hden : 0 < den)
    (hle : num ≤ units * den) : nearestUnits num den ≤ units :=
  Nat.le_trans (nearestUnits_mono hle den) (Nat.le_of_eq (nearestUnits_mul h hden))

theorem le_nearestUnits {num den units : Nat} (h : Representable units) (hden : 0 < den)
    (hle : units * den ≤ num) : units ≤ nearestUnits num den :=
  Nat.le_trans (Nat.le_of_eq (nearestUnits_mul h hden).symm) (nearestUnits_mono hle den)

theorem pow2_le_nearestUnits (k : Nat) {num den : Nat} (hden : 0 < den)
    (hle : pow2 k * den ≤ num) : pow2 k ≤ nearestUnits num den := by
  have hplace : lastPlace (1 * pow2 k) ≤ k := lastPlace_le (by decide)
  rw [Nat.one_mul] at hplace
  exact Nat.le_trans (Nat.le_of_eq (nearestUnits_mul_of_dvd (pow2_dvd_pow2 hplace) hden).symm)
    (nearestUnits_mono hle den)

theorem nearestUnits_eq_zero {num den : Nat} (h : 2 * num < den) : nearestUnits num den = 0 := by
  have hlt : num < den := by omega
  have hround : roundQuotient num den = 0 := by
    simp only [roundQuotient, Nat.div_eq_of_lt hlt, Nat.mod_eq_of_lt hlt, if_pos h]
  have hplace : lastPlace (num / den) = 0 := by simp [lastPlace, Nat.div_eq_of_lt hlt]
  have hone : pow2 0 = 1 := rfl
  unfold nearestUnits
  dsimp only
  rw [hplace, hone, Nat.mul_one, Nat.mul_one, hround]

theorem Number.isNegative_ofRatio (negative : Bool) (num den : Nat) :
    (ofRatio negative num den).isNegative = negative := by
  unfold ofRatio
  split <;> rfl

theorem Number.isNegative_ofInt (k : Nat) : (ofInt (k : Int)).isNegative = false := by
  have hsign : ¬ (k : Int) < 0 := Int.not_lt.2 (Int.natCast_nonneg k)
  rw [ofInt, isNegative_ofRatio, decide_eq_false hsign]

theorem Number.ofRatio_mul (negative : Bool) {units den : Nat} (h : Representable units)
    (hden : 0 < den) : ofRatio negative (units * den) den = .finite negative units h := by
  have hnear := nearestUnits_mul h hden
  have hlt : nearestUnits (units * den) den < overflow := by
    rw [hnear]
    exact h.lt_overflow
  rw [ofRatio, dif_pos hlt]
  simp only [hnear]

end Reckon
