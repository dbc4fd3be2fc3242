/-!
The numbers of the calculator: the values of IEEE 754 binary64. A finite magnitude is held as a
whole number of units of two to the power -1074, the smallest magnitude of the format, so every
operation is exact integer arithmetic followed by one rounding. The main statement is
`nearestUnits_representable`: what rounding yields is a magnitude of the format as soon as it
stays below the overflow bound.
-/
set_option autoImplicit false

namespace Reckon

def pow2 (n : Nat) : Nat := Nat.pow 2 n

theorem pow2_succ (n : Nat) : pow2 (n + 1) = 2 * pow2 n :=
  (Nat.pow_succ 2 n).trans (Nat.mul_comm _ _)

theorem pow2_add (m n : Nat) : pow2 (m + n) = pow2 m * pow2 n := Nat.pow_add 2 m n

theorem pow2_dvd_pow2 {m n : Nat} (h : m ≤ n) : pow2 m ∣ pow2 n := Nat.pow_dvd_pow 2 h

theorem pow2_pos (n : Nat) : 0 < pow2 n := Nat.pow_pos (by decide)

theorem pow2_le_pow2 {m n : Nat} (h : m ≤ n) : pow2 m ≤ pow2 n :=
  Nat.pow_le_pow_right (by decide) h

theorem lt_of_pow2_lt {m n : Nat} (h : pow2 m < pow2 n) : m < n := by
  apply Nat.lt_of_not_le
  intro hn
  have := pow2_le_pow2 hn
  omega

theorem lt_pow2_log2 (u : Nat) : u < pow2 (Nat.log2 u + 1) := Nat.lt_log2_self

theorem pow2_log2_le {u : Nat} (h : u ≠ 0) : pow2 (Nat.log2 u) ≤ u := Nat.log2_self_le h

def one : Nat := pow2 1074

/-- The magnitudes of the format: 53 binary digits, the last of which stands at one of the
places 0 to 2045. -/
def Representable (units : Nat) : Prop :=
  ∃ m place, m < pow2 53 ∧ place ≤ 2045 ∧ units = m * pow2 place

def overflow : Nat := pow2 2098

def leastNormal : Nat := pow2 52

theorem representable_zero : Representable 0 :=
  ⟨0, 0, pow2_pos 53, by decide, (Nat.zero_mul _).symm⟩

theorem representable_of_lt {u : Nat} (h : u < pow2 53) : Representable u :=
  ⟨u, 0, h, by decide, (Nat.mul_one u).symm⟩

theorem Representable.lt_overflow {u : Nat} : Representable u → u < overflow := by
  rintro ⟨m, p, hm, hp, rfl⟩
  have h₁ : m * pow2 p < pow2 53 * pow2 p := Nat.mul_lt_mul_of_pos_right hm (pow2_pos p)
  have h₂ : pow2 53 * pow2 p ≤ overflow := by
    rw [← pow2_add]
    exact pow2_le_pow2 (by omega)
  omega

/-- The whole number nearest to `num / den`, and the even one of two that are equally near. -/
def roundQuotient (num den : Nat) : Nat :=
  let whole := num / den
  let twice := 2 * (num % den)
  if twice < den then whole
  else if den < twice then whole + 1
  else if whole % 2 = 0 then whole
  else whole + 1

theorem roundQuotient_bounds (num den : Nat) :
    num / den ≤ roundQuotient num den ∧ roundQuotient num den ≤ num / den + 1 := by
  unfold roundQuotient
  dsimp only
  split
  · omega
  · split
    · omega
    · split <;> omega

/-- The place of the last binary digit that is kept of a magnitude of so many units. -/
def lastPlace (units : Nat) : Nat := Nat.log2 units - 52

/-- The magnitude nearest to `num / den` units among those with 53 binary digits at any place,
the one with an even last digit of two that are equally near. -/
def nearestUnits (num den : Nat) : Nat :=
  let place := lastPlace (num / den)
  roundQuotient num (den * pow2 place) * pow2 place

theorem lt_pow2_lastPlace (v : Nat) : v < pow2 53 * pow2 (lastPlace v) := by
  rw [← pow2_add]
  refine Nat.lt_of_lt_of_le (lt_pow2_log2 v) (pow2_le_pow2 ?_)
  unfold lastPlace
  omega

theorem pow2_lastPlace_le {v : Nat} (h : 0 < lastPlace v) : pow2 52 * pow2 (lastPlace v) ≤ v := by
  have hlog : Nat.log2 v = 52 + lastPlace v := by
    unfold lastPlace at h ⊢
    omega
  have hv : v ≠ 0 := by
    rintro rfl
    rw [Nat.log2_zero] at hlog
    omega
  rw [← pow2_add, ← hlog]
  exact pow2_log2_le hv

theorem roundQuotient_le_pow2 (num den : Nat) :
    roundQuotient num (den * pow2 (lastPlace (num / den))) ≤ pow2 53 := by
  refine Nat.le_trans (roundQuotient_bounds _ _).2 ?_
  rw [← Nat.div_div_eq_div_mul]
  exact (Nat.div_lt_iff_lt_mul (pow2_pos _)).2 (lt_pow2_lastPlace _)

theorem pow2_le_roundQuotient {num den : Nat} (h : 0 < lastPlace (num / den)) :
    pow2 52 ≤ roundQuotient num (den * pow2 (lastPlace (num / den))) := by
  refine Nat.le_trans ?_ (roundQuotient_bounds _ _).1
  rw [← Nat.div_div_eq_div_mul]
  exact (Nat.le_div_iff_mul_le (pow2_pos _)).2 (pow2_lastPlace_le h)

theorem nearestUnits_representable {num den : Nat} (h : nearestUnits num den < overflow) :
    Representable (nearestUnits num den) := by
  have hupper := roundQuotient_le_pow2 num den
  have hlower : 0 < lastPlace (num / den) → _ := pow2_le_roundQuotient
  unfold nearestUnits at h ⊢
  dsimp only at h ⊢
  generalize lastPlace (num / den) = p at h hupper hlower ⊢
  generalize roundQuotient num (den * pow2 p) = k at h hupper hlower ⊢
  have bound : ∀ a, pow2 a ≤ k → a + p < 2098 := by
    intro a ha
    apply lt_of_pow2_lt
    rw [pow2_add]
    exact Nat.lt_of_le_of_lt (Nat.mul_le_mul_right _ ha) h
  by_cases hk : k < pow2 53
  · refine ⟨k, p, hk, ?_, rfl⟩
    by_cases h0 : p = 0
    · omega
    · have := bound 52 (hlower (by omega))
      omega
  · have hk53 : k = pow2 53 := by omega
    refine ⟨pow2 52, p + 1, by decide, ?_, ?_⟩
    · have := bound 53 (by omega)
      omega
    · rw [hk53, ← pow2_add, ← pow2_add]
      congr 1
      omega

/-- A value of binary64. All not-a-numbers are one, and a zero keeps its sign. -/
inductive Number where
  | nan
  | infinite (negative : Bool)
  | finite (negative : Bool) (units : Nat) (representable : Representable units)
deriving DecidableEq

namespace Number

def zero (negative : Bool) : Number := .finite negative 0 representable_zero

instance : Inhabited Number := ⟨zero false⟩

def ofRatio (negative : Bool) (num den : Nat) : Number :=
  if h : nearestUnits num den < overflow then
    .finite negative (nearestUnits num den) (nearestUnits_representable h)
  else .infinite negative

/-- The value nearest to `num / den` units if it is a normal one, and a zero of the sign given if
it is below them. That is seen at 53 digits at whatever place: what is less than a quarter of a
unit short of the least normal magnitude still rounds up to it. -/
def ofNormalRatio (negative : Bool) (num den : Nat) : Number :=
  if 4 * num < (4 * leastNormal - 1) * den then zero negative else ofRatio negative num den

def ofInt (i : Int) : Number := ofRatio (decide (i < 0)) (i.natAbs * one) 1

def smallest (negative : Bool) : Number :=
  .finite negative 1 (representable_of_lt (by decide))

def half : Number := ofRatio false one 2

def ofBool (b : Bool) : Number := if b then ofInt 1 else ofInt 0

def isNegative : Number → Bool
  | .nan => false
  | .infinite negative => negative
  | .finite negative _ _ => negative

def isZero : Number → Bool
  | .finite _ units _ => units == 0
  | _ => false

def isFinite : Number → Bool
  | .finite _ _ _ => true
  | _ => false

def negate : Number → Number
  | .nan => .nan
  | .infinite negative => .infinite (!negative)
  | .finite negative units h => .finite (!negative) units h

def abs : Number → Number
  | .nan => .nan
  | .infinite _ => .infinite false
  | .finite _ units h => .finite false units h

end Number

end Reckon
