import Mathlib.Data.Rat.Floor
import Reckon.Number.Word
import Reckon.Operator.Meaning
import Reckon.Proofs.Number.Nearest
set_option autoImplicit false

namespace Reckon

namespace Operator

def unary (op : Operator) (x : Number) : Number :=
  match op.meaning with
  | .unary apply => apply x
  | _ => .nan

def binary (op : Operator) (x y : Number) : Number :=
  match op.meaning with
  | .binary apply => apply x y
  | _ => .nan

end Operator

def clamp (i : Int) : Int := max (-2 ^ 63) (min i (2 ^ 63 - 1))

/-- The integers of a sign and 53 more bits; all are values of the format. -/
def IsShort (i : Int) : Prop := -2 ^ 53 ≤ i ∧ i < 2 ^ 53

instance (i : Int) : Decidable (IsShort i) := inferInstanceAs (Decidable (_ ∧ _))

theorem clamp_of_bounds {i : Int} (hl : -2 ^ 63 ≤ i) (hu : i < 2 ^ 63) : clamp i = i := by
  unfold clamp
  omega

theorem Word.toInt_saturate (i : Int) : (saturate i).toInt = clamp i := by
  have hmin : (BitVec.intMin 64).toInt = -2 ^ 63 := by decide
  have hmax : (BitVec.intMax 64).toInt = 2 ^ 63 - 1 := by decide
  unfold saturate clamp
  rw [hmin, hmax]
  split
  · omega
  · split
    · omega
    · rw [BitVec.toInt_ofInt_eq_self (by decide) (by omega) (by omega)]
      omega

namespace Number

def value? : Number → Option ℚ
  | .finite negative units _ => some (signed negative units / one)
  | _ => none

def truncate (r : ℚ) : Int := if 0 ≤ r then ⌊r⌋ else ⌈r⌉

def truncated? (x : Number) : Option Int := x.value?.map truncate

/-- Cut toward zero, the value is this short integer. -/
structure CutsTo (x : Number) (i : Int) : Prop where
  truncated : x.truncated? = some i
  isShort : IsShort i

/-- The value cut toward zero and held between the bounds of 64 bits. -/
def saturated : Number → Int
  | .nan => 0
  | .infinite negative => if negative then -2 ^ 63 else 2 ^ 63 - 1
  | .finite negative units _ => clamp (truncate (signed negative units / one))

/-- The value of the format that is nearest to a number of either sign. -/
def IsRounded (r : ℚ) (x : Number) : Prop :=
  if r < 0 then x.negate.IsNearest (-r) else x.IsNearest r

theorem truncate_intCast (i : Int) : truncate i = i := by simp [truncate]

theorem truncate_natCast_div (m n : Nat) : truncate (m / n) = (m / n : Nat) := by
  have hpos : (0 : ℚ) ≤ m / n := div_nonneg (Nat.cast_nonneg m) (Nat.cast_nonneg n)
  rw [truncate, if_pos hpos]
  exact (Rat.floor_intCast_div_natCast m n).trans (Int.natCast_ediv m n).symm

theorem truncate_neg (r : ℚ) : truncate (-r) = -truncate r := by
  unfold truncate
  rcases lt_trichotomy r 0 with hr | rfl | hr
  · rw [if_pos (by linarith), if_neg (by linarith), Int.floor_neg]
  · simp
  · rw [if_neg (by linarith), if_pos hr.le, Int.ceil_neg]

theorem truncate_signed (negative : Bool) (m n : Nat) :
    truncate (signed negative m / n) = signed negative (m / n) := by
  cases negative with
  | false => simpa [signed] using truncate_natCast_div m n
  | true => simp [signed, neg_div, truncate_neg, truncate_natCast_div]

variable {negative : Bool} {units : Nat} {x : Number} {i : Int}

theorem truncated?_finite (h : Representable units) :
    (finite negative units h).truncated? = some (signed negative (units / one)) :=
  congrArg some (truncate_signed negative units one)

theorem saturated_finite (h : Representable units) :
    (finite negative units h).saturated = clamp (signed negative (units / one)) :=
  congrArg clamp (truncate_signed negative units one)

theorem toInt_toWord (x : Number) : x.toWord.toInt = x.saturated := by
  cases x with
  | nan => rfl
  | infinite negative => cases negative <;> decide
  | finite negative units h => rw [toWord, Word.toInt_saturate, saturated_finite]

theorem saturated_of_truncated? (h : x.truncated? = some i) : x.saturated = clamp i := by
  cases x with
  | finite negative units hfits =>
    rw [truncated?_finite] at h
    rw [saturated_finite, Option.some.inj h]
  | nan | infinite _ => simp [truncated?, value?] at h

theorem CutsTo.saturated (h : x.CutsTo i) : x.saturated = i := by
  obtain ⟨htruncated, hl, hu⟩ := h
  rw [saturated_of_truncated? htruncated, clamp_of_bounds (by omega) (by omega)]

theorem CutsTo.toInt_toWord (h : x.CutsTo i) : x.toWord.toInt = i :=
  x.toInt_toWord.trans h.saturated

theorem representable_mul_one {k : Nat} (h : k ≤ pow2 53) : Representable (k * one) := by
  rcases Nat.lt_or_eq_of_le h with hlt | rfl
  · exact ⟨k, 1074, hlt, by decide, rfl⟩
  · refine ⟨pow2 52, 1075, by decide, by decide, ?_⟩
    rw [one, ← pow2_add, ← pow2_add]

theorem ofInt_eq (h : i.natAbs ≤ pow2 53) :
    ofInt i = .finite (decide (i < 0)) (i.natAbs * one) (representable_mul_one h) := by
  rw [ofInt, ← ofRatio_mul _ (representable_mul_one h) Nat.one_pos, Nat.mul_one]

theorem signed_natAbs (i : Int) (n : Nat) : signed (decide (i < 0)) (i.natAbs * n) = i * n := by
  rcases Int.lt_or_le i 0 with hneg | hpos
  · have hi : (i.natAbs : Int) = -i := by omega
    simp [signed, hneg, hi]
  · have hi : (i.natAbs : Int) = i := by omega
    simp [signed, not_lt.2 hpos, hi]

theorem value?_ofInt (hi : IsShort i) : (ofInt i).value? = some (i : ℚ) := by
  have hbound : i.natAbs ≤ pow2 53 := by
    have hpow : pow2 53 = 2 ^ 53 := rfl
    obtain ⟨hl, hu⟩ := hi
    omega
  have hpos : 0 < one := pow2_pos 1074
  have hone : (one : ℚ) ≠ 0 := Nat.cast_ne_zero.2 hpos.ne'
  have hvalue : (signed (decide (i < 0)) (i.natAbs * one) : ℚ) / one = i := by
    rw [signed_natAbs, Int.cast_mul, Int.cast_natCast, mul_div_cancel_right₀ _ hone]
  rw [ofInt_eq hbound]
  exact congrArg some hvalue

theorem value?_of_eq_ofInt (h : x = ofInt i) (hi : IsShort i) : x.value? = some (i : ℚ) :=
  h ▸ value?_ofInt hi

theorem cutsTo_ofInt (hi : IsShort i) : (ofInt i).CutsTo i where
  truncated := by rw [truncated?, value?_ofInt hi, Option.map_some, truncate_intCast]
  isShort := hi

theorem negate_ofRatio (negative : Bool) (num den : Nat) :
    (ofRatio negative num den).negate = ofRatio (!negative) num den := by
  unfold ofRatio
  split <;> rfl

theorem isNearest_natCast (k : Nat) : (ofRatio false (k * one) 1).IsNearest k :=
  isNearest_ofRatio Nat.one_pos (by push_cast; ring)

theorem isRounded_ofInt (i : Int) : (ofInt i).IsRounded i := by
  have habs : (i.natAbs : ℚ) = |(i : ℚ)| := by rw [Nat.cast_natAbs, Int.cast_abs]
  have hnearest := isNearest_natCast i.natAbs
  rw [habs] at hnearest
  unfold IsRounded ofInt
  rcases Int.lt_or_le i 0 with hneg | hpos
  · have hr : (i : ℚ) < 0 := Int.cast_lt_zero.2 hneg
    rw [abs_of_neg hr] at hnearest
    rw [if_pos hr, negate_ofRatio, decide_eq_true hneg]
    exact hnearest
  · have hr : (0 : ℚ) ≤ i := Int.cast_nonneg hpos
    rw [abs_of_nonneg hr] at hnearest
    rw [if_neg (not_lt.2 hr), decide_eq_false (not_lt.2 hpos)]
    exact hnearest

end Number

end Reckon
