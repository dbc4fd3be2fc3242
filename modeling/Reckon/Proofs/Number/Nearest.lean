import Mathlib.Data.Nat.Dist
import Mathlib.Algebra.Order.Field.Basic
import Mathlib.Data.Rat.Cast.Order
import Mathlib.Tactic.Linarith
import Reckon.Proofs.Number.Rounding
/-!
Rounding is to the nearest value. What lies below the middle between the greatest magnitude of the
format and the overflow bound is rounded to a magnitude to which no other one is nearer, and to one
whose last binary digit is even if another is as near (`Number.isNearest_ofRatio`); and there is
only one value of which this can be said (`Number.IsNearest.unique`).
-/
set_option autoImplicit false

namespace Reckon

def HasEvenDigit (units : Nat) : Prop := pow2 (lastPlace units + 1) ∣ units

/-- The middle between the greatest magnitude of the format and the overflow bound. -/
def halfway : Nat := overflow - pow2 2044

/-- A number of units, which need not be whole, is nearest to this magnitude of the format. -/
structure IsNearestUnits (r : ℚ) (units : Nat) : Prop where
  nearest : ∀ v, Representable v → |r - units| ≤ |r - v|
  even : ∀ v, Representable v → v ≠ units → |r - v| = |r - units| → HasEvenDigit units

/-- The value of the format that is nearest to a number which is not negative. -/
inductive Number.IsNearest (r : ℚ) : Number → Prop where
  | finite {units : Nat} {h : Representable units} :
      r * one < halfway → IsNearestUnits (r * one) units → IsNearest r (.finite false units h)
  | infinite : (halfway : ℚ) ≤ r * one → IsNearest r (.infinite false)

theorem roundQuotient_dist (num : Nat) {den : Nat} (hden : 0 < den) :
    2 * Nat.dist num (roundQuotient num den * den) ≤ den ∧
      (2 * Nat.dist num (roundQuotient num den * den) = den → roundQuotient num den % 2 = 0) := by
  have hnum := Nat.div_add_mod' num den
  have hrest := Nat.mod_lt num hden
  have hnext : (num / den + 1) * den = num / den * den + den := Nat.succ_mul ..
  simp only [roundQuotient, Nat.dist]
  split
  · omega
  · split
    · omega
    · split <;> omega

theorem dist_roundQuotient_le (num : Nat) {den : Nat} (hden : 0 < den) {k : Nat}
    (hk : k ≠ roundQuotient num den) :
    Nat.dist num (roundQuotient num den * den) ≤ Nat.dist num (k * den) ∧
      (Nat.dist num (k * den) = Nat.dist num (roundQuotient num den * den) →
        roundQuotient num den % 2 = 0) := by
  obtain ⟨hhalf, heven⟩ := roundQuotient_dist num hden
  have hfar : den ≤ Nat.dist (k * den) (roundQuotient num den * den) := by
    rw [Nat.dist_mul_right]
    exact Nat.le_mul_of_pos_left den (Nat.dist_pos_of_ne hk)
  have htriangle := Nat.dist.triangle_inequality (k * den) num (roundQuotient num den * den)
  rw [Nat.dist_comm (k * den) num] at htriangle
  exact ⟨by omega, fun heq => heven (by omega)⟩

theorem hasEvenDigit_mul_pow2 {k : Nat} (place : Nat) (hk : k ≤ pow2 53) (heven : k % 2 = 0) :
    HasEvenDigit (k * pow2 place) := by
  have hshort : ∀ m p, m < pow2 53 → m % 2 = 0 → HasEvenDigit (m * pow2 p) := by
    intro m p hm heven
    have hdvd : pow2 (p + 1) ∣ m * pow2 p := by
      rw [pow2_succ]
      exact Nat.mul_dvd_mul_right (Nat.dvd_of_mod_eq_zero heven) _
    exact Nat.dvd_trans (pow2_dvd_pow2 (Nat.succ_le_succ (lastPlace_le hm))) hdvd
  rcases Nat.lt_or_eq_of_le hk with hlt | rfl
  · exact hshort k place hlt heven
  · have hpow : pow2 53 * pow2 place = pow2 52 * pow2 (place + 1) := by
      rw [← pow2_add, ← pow2_add]
      congr 1
      omega
    rw [hpow]
    exact hshort (pow2 52) (place + 1) (by decide) (by decide)

theorem lt_of_lastPlace_lt {v p : Nat} (h : lastPlace v < p) : v < pow2 52 * pow2 p := by
  refine Nat.lt_of_lt_of_le (lt_pow2_lastPlace v) ?_
  rw [← pow2_add, ← pow2_add]
  exact pow2_le_pow2 (by omega)

/-- No number of 53 binary digits is nearer to a quotient than the one that it is rounded to, and
if one is as near, the last digit of that one is even. -/
theorem dist_nearestUnits_le (num : Nat) {den v : Nat} (hden : 0 < den)
    (hv : pow2 (lastPlace v) ∣ v) (hne : v ≠ nearestUnits num den) :
    Nat.dist num (nearestUnits num den * den) ≤ Nat.dist num (v * den) ∧
      (Nat.dist num (v * den) = Nat.dist num (nearestUnits num den * den) →
        HasEvenDigit (nearestUnits num den)) := by
  have hupper := roundQuotient_le_pow2 num den
  have hplace : 0 < lastPlace (num / den) → _ := pow2_lastPlace_le
  have hdist := fun k => @dist_roundQuotient_le num (den * pow2 (lastPlace (num / den)))
    (Nat.mul_pos hden (pow2_pos _)) k
  unfold nearestUnits at hne ⊢
  dsimp only at hne ⊢
  generalize lastPlace (num / den) = p at hupper hplace hdist hne ⊢
  generalize roundQuotient num (den * pow2 p) = k at hupper hdist hne ⊢
  have hmultiple : ∀ j, j * (den * pow2 p) = j * pow2 p * den := fun j => by
    rw [Nat.mul_comm den, Nat.mul_assoc]
  simp only [hmultiple] at hdist
  by_cases hdvd : pow2 p ∣ v
  · obtain ⟨j, hj⟩ := hdvd
    obtain rfl : v = j * pow2 p := hj.trans (Nat.mul_comm _ _)
    obtain ⟨hle, htie⟩ := hdist j (by rintro rfl; exact hne rfl)
    exact ⟨hle, fun heq => hasEvenDigit_mul_pow2 p hupper (htie heq)⟩
  · -- With a digit below the last place it lies below the power of two that the quotient reaches.
    have hlow : lastPlace v < p := by
      rw [← Nat.not_le]
      exact fun hle => hdvd (Nat.dvd_trans (pow2_dvd_pow2 hle) hv)
    have hv : v * den < pow2 52 * pow2 p * den :=
      Nat.mul_lt_mul_of_pos_right (lt_of_lastPlace_lt hlow) hden
    have hpow : pow2 52 * pow2 p * den ≤ num :=
      (Nat.le_div_iff_mul_le hden).1 (hplace (by omega))
    have hnear : Nat.dist num (k * pow2 p * den) ≤ Nat.dist num (pow2 52 * pow2 p * den) := by
      by_cases hk : pow2 52 = k
      · rw [hk]
      · exact (hdist _ hk).1
    have hfar : Nat.dist num (pow2 52 * pow2 p * den) < Nat.dist num (v * den) := by
      rw [Nat.dist_eq_sub_of_le_right hpow, Nat.dist_eq_sub_of_le_right (by omega)]
      omega
    exact ⟨by omega, fun heq => by omega⟩

def greatest : Nat := overflow - pow2 2045

theorem Representable.le_greatest {units : Nat} (h : Representable units) : units ≤ greatest := by
  obtain ⟨m, p, hm, hp, rfl⟩ := h
  have hm : m ≤ pow2 53 - 1 := by omega
  have hgreatest : greatest = (pow2 53 - 1) * pow2 2045 := by decide +kernel
  rw [hgreatest]
  exact Nat.mul_le_mul hm (pow2_le_pow2 hp)

theorem representable_greatest : Representable greatest :=
  ⟨pow2 53 - 1, 2045, by decide, by decide, by decide +kernel⟩

theorem not_hasEvenDigit_greatest : ¬ HasEvenDigit greatest := by
  have hplace : lastPlace greatest = 2045 := by decide +kernel
  rw [HasEvenDigit, hplace]
  decide +kernel

/-- The overflow bound is a number of 53 binary digits, though not one of the format. -/
theorem pow2_lastPlace_dvd_overflow : pow2 (lastPlace overflow) ∣ overflow := by
  have hplace : lastPlace overflow = 2046 := by decide +kernel
  rw [hplace]
  exact pow2_dvd_pow2 (by decide)

/-- A quotient is rounded below the overflow bound if it lies nearer to the greatest magnitude. -/
theorem nearestUnits_lt_overflow_iff (num : Nat) {den : Nat} (hden : 0 < den) :
    nearestUnits num den < overflow ↔ num < halfway * den := by
  have hmiddle : halfway = greatest + pow2 2044 := by decide +kernel
  have hbound : overflow = greatest + pow2 2044 + pow2 2044 := by decide +kernel
  have hpos : 0 < pow2 2044 * den := Nat.mul_pos (pow2_pos 2044) hden
  have hmiddle : halfway * den = greatest * den + pow2 2044 * den := by
    rw [hmiddle, Nat.add_mul]
  have hover : overflow * den = greatest * den + pow2 2044 * den + pow2 2044 * den := by
    rw [hbound, Nat.add_mul, Nat.add_mul]
  constructor
  · intro hlt
    have hgreatest := (nearestUnits_representable hlt).le_greatest
    have hscaled := Nat.mul_le_mul_right den hgreatest
    obtain ⟨hnear, htie⟩ := dist_nearestUnits_le num hden pow2_lastPlace_dvd_overflow (by omega)
    by_contra hge
    -- In the middle the greatest magnitude and the overflow bound are equally near.
    unfold Nat.dist at hnear htie
    have heq : nearestUnits num den = greatest := by
      refine Nat.eq_of_mul_eq_mul_right hden ?_
      omega
    exact not_hasEvenDigit_greatest (heq ▸ htie (by omega))
  · intro hlt
    by_contra hge
    have hscaled := Nat.mul_le_mul_right den (Nat.not_lt.1 hge)
    have hfar := (dist_nearestUnits_le num hden representable_greatest.pow2_lastPlace_dvd
      (by have := representable_greatest.lt_overflow; omega)).1
    unfold Nat.dist at hfar
    omega

theorem abs_div_sub (num : Nat) {den : Nat} (hden : 0 < den) (v : Nat) :
    |(num / den : ℚ) - v| = Nat.dist num (v * den) / den := by
  have hpos : (0 : ℚ) < den := Nat.cast_pos.2 hden
  have hdist : |(num : ℚ) - (v * den : Nat)| = Nat.dist num (v * den) := by
    rcases Nat.le_total num (v * den) with hle | hle
    · rw [Nat.dist_eq_sub_of_le hle, Nat.cast_sub hle, abs_sub_comm, abs_of_nonneg]
      exact sub_nonneg.2 (Nat.cast_le.2 hle)
    · rw [Nat.dist_eq_sub_of_le_right hle, Nat.cast_sub hle, abs_of_nonneg]
      exact sub_nonneg.2 (Nat.cast_le.2 hle)
  rw [div_sub' hpos.ne', abs_div, abs_of_pos hpos, ← hdist, Nat.cast_mul, mul_comm (v : ℚ)]

theorem isNearestUnits_nearestUnits (num : Nat) {den : Nat} (hden : 0 < den) :
    IsNearestUnits (num / den : ℚ) (nearestUnits num den) := by
  have hpos : (0 : ℚ) < den := Nat.cast_pos.2 hden
  constructor
  · intro v hv
    rw [abs_div_sub num hden, abs_div_sub num hden, div_le_div_iff_of_pos_right hpos, Nat.cast_le]
    by_cases hne : v = nearestUnits num den
    · rw [hne]
    · exact (dist_nearestUnits_le num hden hv.pow2_lastPlace_dvd hne).1
  · intro v hv hne heq
    rw [abs_div_sub num hden, abs_div_sub num hden, div_left_inj' hpos.ne', Nat.cast_inj] at heq
    exact (dist_nearestUnits_le num hden hv.pow2_lastPlace_dvd hne).2 heq

namespace Number

theorem isNearest_ofRatio {r : ℚ} {num den : Nat} (hden : 0 < den) (hr : r * one = num / den) :
    (ofRatio false num den).IsNearest r := by
  have hbound : r * one < halfway ↔ nearestUnits num den < overflow := by
    rw [hr, div_lt_iff₀ (Nat.cast_pos.2 hden), nearestUnits_lt_overflow_iff num hden]
    exact_mod_cast Iff.rfl
  by_cases hlt : nearestUnits num den < overflow
  · rw [ofRatio, dif_pos hlt]
    exact .finite (hbound.2 hlt) (hr ▸ isNearestUnits_nearestUnits num hden)
  · rw [ofRatio, dif_neg hlt]
    exact .infinite (not_lt.1 (mt hbound.1 hlt))

end Number

theorem exists_representable_between {u v : Nat} (hu : Representable u) (hlt : u < v)
    (hueven : HasEvenDigit u) (hveven : HasEvenDigit v) :
    ∃ w, Representable w ∧ u < w ∧ w < v := by
  have hplace : lastPlace u ≤ 2045 := by
    obtain ⟨m, place, hm, hle, rfl⟩ := hu
    exact Nat.le_trans (lastPlace_le hm) hle
  have hmono : lastPlace u ≤ lastPlace v := Nat.sub_le_sub_right (log2_le_log2 hlt.le) 52
  have hbound := lt_pow2_lastPlace u
  have hv : pow2 (lastPlace u + 1) ∣ v :=
    Nat.dvd_trans (pow2_dvd_pow2 (Nat.succ_le_succ hmono)) hveven
  have hgap : pow2 (lastPlace u + 1) ≤ v - u :=
    Nat.le_of_dvd (Nat.sub_pos_of_lt hlt) (Nat.dvd_sub hv hueven)
  have hpos := pow2_pos (lastPlace u)
  obtain ⟨k, hk⟩ := hueven
  generalize lastPlace u = p at hplace hbound hgap hpos hk
  have heven : u = 2 * k * pow2 p := by
    rw [hk, pow2_succ, Nat.mul_right_comm]
  have hshort : 2 * k < pow2 53 := by
    rw [heven] at hbound
    exact Nat.lt_of_mul_lt_mul_right hbound
  have hodd : 2 * k + 1 < pow2 53 := by
    have hdouble : pow2 53 = 2 * pow2 52 := pow2_succ 52
    omega
  rw [pow2_succ] at hgap
  exact ⟨u + pow2 p, ⟨2 * k + 1, p, hodd, hplace, by rw [Nat.succ_mul, ← heven]⟩, by omega,
    by omega⟩

theorem IsNearestUnits.not_lt {r : ℚ} {u v : Nat} (hu : Representable u) (hv : Representable v)
    (hur : IsNearestUnits r u) (hvr : IsNearestUnits r v) : ¬ u < v := by
  intro hlt
  have heq : |r - v| = |r - u| := le_antisymm (hvr.nearest u hu) (hur.nearest v hv)
  obtain ⟨w, hw, huw, hwv⟩ := exists_representable_between hu hlt
    (hur.even v hv hlt.ne' heq) (hvr.even u hu hlt.ne heq.symm)
  have hltq : (u : ℚ) < v := Nat.cast_lt.2 hlt
  have huwq : (u : ℚ) < w := Nat.cast_lt.2 huw
  have hwvq : (w : ℚ) < v := Nat.cast_lt.2 hwv
  have hmiddle : v - r = r - u := by
    rcases abs_eq_abs.1 heq with hsame | hopposite <;> linarith
  rcases le_abs.1 (le_trans (le_abs_self _) (hur.nearest w hw)) with hle | hle <;> linarith

theorem Number.IsNearest.unique {r : ℚ} {x y : Number} (hx : x.IsNearest r)
    (hy : y.IsNearest r) : x = y := by
  cases hx with
  | infinite hge =>
    cases hy with
    | infinite _ => rfl
    | finite hlt _ => exact absurd hlt (not_lt.2 hge)
  | @finite u hu hlt hxr =>
    cases hy with
    | infinite hge => exact absurd hlt (not_lt.2 hge)
    | @finite v hv _ hyr =>
      obtain rfl : u = v := by
        have := hxr.not_lt hu hv hyr
        have := hyr.not_lt hv hu hxr
        omega
      rfl

end Reckon
