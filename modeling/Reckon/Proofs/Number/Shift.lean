import Reckon.Proofs.Number.Value
import Reckon.Proofs.Number.Word
set_option autoImplicit false

namespace Reckon

/-- A value as an amount of places. It is cut toward zero, and infinity is larger than a word. -/
inductive Number.IsAmount (k : Nat) : Number → Prop where
  | finite {s : Number} : s.truncated? = some (k : Int) → IsAmount k s
  | infinite : 64 ≤ k → IsAmount k (.infinite false)

variable {x s : Number} {a : Int} {k : Nat}

theorem Number.IsAmount.amount_toWord (h : s.IsAmount k) : s.toWord.amount = min k 64 := by
  have hcond := s.toWord.toInt_eq_toNat_cond
  rw [toInt_toWord] at hcond
  unfold Word.amount
  cases h with
  | finite hk =>
    rw [saturated_of_truncated? hk, clamp] at hcond
    split at hcond <;> split <;> omega
  | infinite hk =>
    simp only [saturated, Bool.false_eq_true, if_false] at hcond
    split at hcond <;> split <;> omega

namespace Word

/-- Dividing by a power of two from `2 ^ 64` on leaves the sign of a word. -/
theorem toInt_ediv_of_le (w : Word) (hk : 64 ≤ k) : w.toInt / 2 ^ k = w.toInt / 2 ^ 64 := by
  have hl := w.le_toInt
  have hu := w.toInt_lt
  have hpow : (2 : Int) ^ 64 ≤ 2 ^ k := pow_le_pow_right₀ (by decide) hk
  rcases Int.lt_or_le w.toInt 0 with hneg | hpos
  · rw [Int.ediv_eq_neg_one_of_neg_of_le hneg (by omega),
      Int.ediv_eq_neg_one_of_neg_of_le hneg (by omega)]
  · rw [Int.ediv_eq_zero_of_lt hpos (by omega), Int.ediv_eq_zero_of_lt hpos (by omega)]

theorem toInt_sshiftRight_min (w : Word) (k : Nat) :
    (w.sshiftRight (min k 64)).toInt = w.toInt / 2 ^ k := by
  rw [BitVec.toInt_sshiftRight, Int.shiftRight_eq_div_pow]
  rcases Nat.le_total k 64 with hk | hk
  · rw [Nat.min_eq_left hk, Int.natCast_pow]
    rfl
  · rw [Nat.min_eq_right hk, toInt_ediv_of_le w hk]
    rfl

theorem isResidue_shiftLeft_min (w : Word) (k : Nat) :
    IsResidue true 64 (w.toInt * 2 ^ k) (w <<< min k 64).toInt where
  congruent := by
    rcases Nat.le_total k 64 with hk | hk
    · have hshift : ((w <<< k).toNat : Int) ≡ w.toNat * 2 ^ k [ZMOD 2 ^ 64] := by
        rw [BitVec.toNat_shiftLeft, Nat.shiftLeft_eq]
        exact_mod_cast Nat.mod_modEq (w.toNat * 2 ^ k) (2 ^ 64)
      have hword : w.toInt ≡ w.toNat [ZMOD 2 ^ 64] := read_congruent true w
      rw [Nat.min_eq_left hk]
      exact ((read_congruent true _).trans hshift).trans (hword.mul_right _).symm
    · have hdvd : (2 : Int) ^ 64 ∣ w.toInt * 2 ^ k := Dvd.dvd.mul_left (pow_dvd_pow 2 hk) _
      rw [Nat.min_eq_right hk, BitVec.shiftLeft_eq_zero (Nat.le_refl 64), BitVec.toInt_zero]
      exact (Int.modEq_zero_iff_dvd.2 hdvd).symm
  inWidth := inWidth_read true _

theorem shiftRight_eq_sshiftRight (w : Word) (n : Nat) (hw : 0 ≤ w.toInt) :
    w >>> n = w.sshiftRight n := by
  have hsign : w.msb = false := by simpa [BitVec.msb_eq_toInt] using hw
  exact (BitVec.sshiftRight_eq_of_msb_false hsign).symm

theorem toInt_shiftRight_of_neg (w : Word) (hw : w.toInt < 0) (hk : 0 < k) :
    (w >>> k).toInt = (w.toInt + 2 ^ 64) / 2 ^ k := by
  have hnat : (w.toNat : Int) = w.toInt + 2 ^ 64 := by
    have hcond := w.toInt_eq_toNat_cond
    split at hcond <;> omega
  rw [BitVec.toInt_ushiftRight_of_lt hk, Nat.shiftRight_eq_div_pow, Int.natCast_ediv, hnat,
    Int.natCast_pow]
  rfl

end Word

theorem IsShort.ediv_pow (ha : IsShort a) (k : Nat) : IsShort (a / 2 ^ k) := by
  have hpow : (0 : Int) < 2 ^ k := pow_pos (by decide) k
  obtain ⟨hl, hu⟩ := ha
  rcases Int.lt_or_le a 0 with hneg | hpos
  · have hle : a ≤ a / 2 ^ k := Int.le_ediv_of_mul_le hpow (by nlinarith)
    have hquotient := Int.ediv_neg_of_neg_of_pos hneg hpow
    exact ⟨by omega, by omega⟩
  · have hle := Int.ediv_le_self (2 ^ k) hpos
    have hquotient := Int.ediv_nonneg hpos hpow.le
    exact ⟨by omega, by omega⟩

theorem IsShort.isResidue (ha : IsShort a) : IsResidue true 64 a a where
  congruent := rfl
  inWidth := by
    obtain ⟨hl, hu⟩ := ha
    simp only [InWidth, if_true]
    omega

theorem floor_div_pow (a : Int) (k : Nat) : ⌊(a / 2 ^ k : ℚ)⌋ = a / 2 ^ k := by
  exact_mod_cast Rat.floor_intCast_div_natCast a (2 ^ k)

theorem shiftRight_eq (hx : x.CutsTo a) (hs : s.IsAmount k) :
    Operator.shiftRight.binary x s = .ofInt (a / 2 ^ k) := by
  change Number.ofInt (x.toWord.sshiftRight s.toWord.amount).toInt = _
  rw [hs.amount_toWord, Word.toInt_sshiftRight_min, hx.toInt_toWord]

theorem shiftLeft_eq (hx : x.CutsTo a) (hs : s.IsAmount k) :
    ∃ w, IsResidue true 64 (a * 2 ^ k) w ∧ Operator.shiftLeft.binary x s = .ofInt w := by
  refine ⟨(x.toWord <<< min k 64).toInt, ?_, ?_⟩
  · rw [← hx.toInt_toWord]
    exact Word.isResidue_shiftLeft_min x.toWord k
  · rw [← hs.amount_toWord]
    rfl

theorem shiftLeft_of_isShort (hx : x.CutsTo a) (hs : s.IsAmount k) (h : IsShort (a * 2 ^ k)) :
    Operator.shiftLeft.binary x s = .ofInt (a * 2 ^ k) := by
  obtain ⟨w, hw, hleft⟩ := shiftLeft_eq hx hs
  rw [hleft, hw.unique h.isResidue (by decide)]

theorem shiftLeft_of_le (x : Number) (hs : s.IsAmount k) (hk : 64 ≤ k) :
    Operator.shiftLeft.binary x s = .ofInt 0 := by
  change Number.ofInt (x.toWord <<< s.toWord.amount).toInt = _
  rw [hs.amount_toWord, Nat.min_eq_right hk, BitVec.shiftLeft_eq_zero (Nat.le_refl 64),
    BitVec.toInt_zero]

theorem shiftRightLogical_of_nonneg (hx : x.CutsTo a) (ha : 0 ≤ a) (s : Number) :
    Operator.shiftRightLogical.binary x s = Operator.shiftRight.binary x s := by
  change Number.ofWord (x.toWord >>> s.toWord.amount) = _
  rw [Word.shiftRight_eq_sshiftRight _ _ (hx.toInt_toWord ▸ ha)]
  rfl

theorem shiftRightLogical_of_neg (hx : x.CutsTo a) (hs : s.IsAmount k) (ha : a < 0) (hl : 1 ≤ k)
    (hu : k ≤ 63) : Operator.shiftRightLogical.binary x s = .ofInt ((a + 2 ^ 64) / 2 ^ k) := by
  change Number.ofInt (x.toWord >>> s.toWord.amount).toInt = _
  rw [hs.amount_toWord, Nat.min_eq_left (by omega),
    Word.toInt_shiftRight_of_neg _ (hx.toInt_toWord ▸ ha) hl, hx.toInt_toWord]

/-- The shifts divide and multiply by a power of two. Only what leaves 64 bits or is no short
integer is not exact. -/
theorem shift_operators (hx : x.CutsTo a) (hs : s.IsAmount k) :
    let left := Operator.shiftLeft.binary
    let right := Operator.shiftRight.binary
    let logical := Operator.shiftRightLogical.binary
    (right x s).value? = some (⌊(a / 2 ^ k : ℚ)⌋ : ℚ) ∧
      (∃ w : Int, IsResidue true 64 (a * 2 ^ k) w ∧ (left x s).IsRounded w) ∧
      (64 ≤ k → (left x s).value? = some 0) ∧
      (|a * 2 ^ k| < 2 ^ 53 → (left x s).value? = some (a * 2 ^ k : ℚ) ∧
        (right (left x s) s).value? = some (a : ℚ)) ∧
      (0 ≤ a → logical x s = right x s) ∧
      (a < 0 → 1 ≤ k → k ≤ 63 → (logical x s).IsRounded ⌊((a + 2 ^ 64) / 2 ^ k : ℚ)⌋) := by
  intro left right logical
  refine ⟨?_, ?_, fun hk => ?_, fun h => ?_, fun ha => ?_, fun ha hl hu => ?_⟩
  · rw [floor_div_pow]
    exact Number.value?_of_eq_ofInt (shiftRight_eq hx hs) (hx.isShort.ediv_pow k)
  · obtain ⟨w, hw, hleft⟩ := shiftLeft_eq hx hs
    exact ⟨w, hw, by simpa only [left, hleft] using Number.isRounded_ofInt w⟩
  · exact_mod_cast Number.value?_of_eq_ofInt (shiftLeft_of_le x hs hk) (by decide)
  · have hshort : IsShort (a * 2 ^ k) := ⟨(abs_lt.1 h).1.le, (abs_lt.1 h).2⟩
    have hleft := shiftLeft_of_isShort hx hs hshort
    have hback : right (left x s) s = .ofInt (a * 2 ^ k / 2 ^ k) := by
      simp only [left, hleft]
      exact shiftRight_eq (Number.cutsTo_ofInt hshort) hs
    rw [Int.mul_ediv_cancel _ (pow_ne_zero k (by decide))] at hback
    exact ⟨by exact_mod_cast Number.value?_of_eq_ofInt hleft hshort,
      Number.value?_of_eq_ofInt hback hx.isShort⟩
  · exact shiftRightLogical_of_nonneg hx ha s
  · have hcast : (a + 2 ^ 64 : ℚ) = ((a + 2 ^ 64 : Int) : ℚ) := by norm_num
    rw [hcast, floor_div_pow]
    simp only [logical, shiftRightLogical_of_neg hx hs ha hl hu]
    exact Number.isRounded_ofInt _

theorem shift_operators_negative :
    let x : Number := .ofInt (-5)
    let two : Number := .ofInt 2
    x.CutsTo (-5) ∧ two.IsAmount 2 ∧
      (Operator.shiftRight.binary x two).value? = some (-2) ∧
      (Operator.shiftRight.binary (Operator.shiftLeft.binary x two) two).value? = some (-5) ∧
      (Operator.shiftRightLogical.binary x two).IsRounded (2 ^ 62 - 2) ∧
      (Operator.shiftLeft.binary x (.infinite false)).value? = some 0 := by
  intro x two
  have hx : x.CutsTo (-5) := Number.cutsTo_ofInt (by decide)
  have htwo : two.IsAmount 2 := .finite (Number.cutsTo_ofInt (by decide)).truncated
  obtain ⟨hright, -, -, hexact, -, hlogical⟩ := shift_operators hx htwo
  obtain ⟨-, -, hout, -⟩ := shift_operators hx (.infinite (Nat.le_refl 64))
  have hback := (hexact (by norm_num)).2
  have hlarge := hlogical (by decide) (by decide) (by decide)
  have hfloor : ⌊(((-5 : Int) : ℚ) / 2 ^ 2)⌋ = -2 := by norm_num
  have hfloor' : ⌊((((-5 : Int) : ℚ) + 2 ^ 64) / 2 ^ 2)⌋ = 2 ^ 62 - 2 := by norm_num
  rw [hfloor] at hright
  rw [hfloor'] at hlarge
  exact ⟨hx, htwo, by exact_mod_cast hright, by exact_mod_cast hback, by exact_mod_cast hlarge,
    hout (Nat.le_refl 64)⟩

end Reckon
