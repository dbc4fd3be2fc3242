import Mathlib.Data.Int.Bitwise
import Mathlib.Data.Int.ModEq
import Mathlib.Tactic.Linarith
import Reckon.Number.Word
/-!
Words as integers. The low bits of a word are the integer of so many bits that is congruent to it
(`isResidue_read`), and bit by bit operations on words are those on integers with infinitely many
digits (`toInt_and`, `toInt_or`, `toInt_xor`, `toInt_not`).
-/
set_option autoImplicit false

namespace Reckon

def InWidth (signed : Bool) (width : Nat) (i : Int) : Prop :=
  if signed then -2 ^ (width - 1) ≤ i ∧ i < 2 ^ (width - 1) else 0 ≤ i ∧ i < 2 ^ width

/-- What is left of an integer in so many bits. -/
structure IsResidue (signed : Bool) (width : Nat) (i residue : Int) : Prop where
  congruent : residue ≡ i [ZMOD 2 ^ width]
  inWidth : InWidth signed width residue

variable {signed signed' : Bool} {width width' : Nat} {i j k : Int}

theorem InWidth.abs_sub_lt (hi : InWidth signed width i) (hj : InWidth signed width j)
    (hwidth : 0 < width) : |i - j| < 2 ^ width := by
  have hpow : (2 : Int) ^ width = 2 ^ (width - 1) + 2 ^ (width - 1) := by
    rw [← Int.two_mul, ← Int.pow_succ', Nat.sub_one_add_one hwidth.ne']
  rw [abs_lt]
  cases signed with
  | false =>
    simp only [InWidth, Bool.false_eq_true, if_false] at hi hj
    omega
  | true =>
    simp only [InWidth, if_true] at hi hj
    omega

theorem IsResidue.unique (hj : IsResidue signed width i j) (hk : IsResidue signed width i k)
    (hwidth : 0 < width) : j = k := by
  have hdvd : (2 : Int) ^ width ∣ j - k := (hk.congruent.trans hj.congruent.symm).dvd
  have hzero := Int.eq_zero_of_abs_lt_dvd hdvd (hj.inWidth.abs_sub_lt hk.inWidth hwidth)
  omega

theorem IsResidue.trans (hj : IsResidue signed' width' i j) (hk : IsResidue signed width j k)
    (hle : width ≤ width') : IsResidue signed width i k where
  congruent := hk.congruent.trans (hj.congruent.of_dvd (pow_dvd_pow 2 hle))
  inWidth := hk.inWidth

theorem testBit_ofNat_of_le {m n : Nat} (h : m ≤ n) : (Int.ofNat m).testBit n = false :=
  Nat.testBit_lt_two_pow (Nat.lt_of_le_of_lt h Nat.lt_two_pow_self)

theorem testBit_negSucc_of_le {m n : Nat} (h : m ≤ n) : (Int.negSucc m).testBit n = true :=
  congrArg not (testBit_ofNat_of_le h)

theorem eq_of_testBit (h : ∀ n, i.testBit n = j.testBit n) : i = j := by
  cases i with
  | ofNat m =>
    cases j with
    | ofNat n => exact congrArg Int.ofNat (Nat.eq_of_testBit_eq h)
    | negSucc n =>
      have hsign := h (m + n)
      rw [testBit_ofNat_of_le (by omega), testBit_negSucc_of_le (by omega)] at hsign
      cases hsign
  | negSucc m =>
    cases j with
    | ofNat n =>
      have hsign := h (m + n)
      rw [testBit_ofNat_of_le (by omega), testBit_negSucc_of_le (by omega)] at hsign
      cases hsign
    | negSucc n =>
      have hdigits : ∀ d, m.testBit d = n.testBit d := fun d => by simpa [Int.testBit] using h d
      exact congrArg Int.negSucc (Nat.eq_of_testBit_eq hdigits)

namespace Word

def read (signed : Bool) {width : Nat} (bits : BitVec width) : Int :=
  if signed then bits.toInt else bits.toNat

theorem read_congruent (signed : Bool) (bits : BitVec width) :
    read signed bits ≡ bits.toNat [ZMOD 2 ^ width] := by
  cases signed with
  | false => rfl
  | true =>
    rw [read, if_pos rfl, BitVec.toInt_eq_toNat_bmod]
    exact_mod_cast Int.bmod_emod

theorem inWidth_read (signed : Bool) (bits : BitVec width) :
    InWidth signed width (read signed bits) := by
  cases signed with
  | false =>
    simp only [InWidth, read, Bool.false_eq_true, if_false]
    exact ⟨Int.natCast_nonneg _, by exact_mod_cast bits.isLt⟩
  | true =>
    simp only [InWidth, read, if_true]
    exact ⟨bits.le_toInt, bits.toInt_lt⟩

theorem isResidue_read (signed : Bool) (w : Word) (hwidth : width ≤ 64) :
    IsResidue signed width w.toInt (read signed (w.setWidth width)) where
  congruent := by
    have hlow : ((w.setWidth width).toNat : Int) ≡ w.toNat [ZMOD 2 ^ width] := by
      rw [BitVec.toNat_setWidth]
      exact_mod_cast Int.mod_modEq w.toNat (2 ^ width)
    have hword : w.toInt ≡ w.toNat [ZMOD 2 ^ 64] := read_congruent true w
    exact ((read_congruent signed _).trans hlow).trans (hword.of_dvd (pow_dvd_pow 2 hwidth)).symm
  inWidth := inWidth_read signed _

theorem testBit_toInt (bits : BitVec width) (n : Nat) :
    bits.toInt.testBit n = if n < width then bits.getLsbD n else bits.msb := by
  cases hsign : bits.msb with
  | false =>
    have hint : bits.toInt = (bits.toNat : Int) := BitVec.toInt_eq_toNat_of_msb hsign
    rw [hint]
    split
    · rfl
    · exact BitVec.getLsbD_of_ge bits n (by omega)
  | true =>
    have hint : bits.toInt = Int.negSucc (~~~bits).toNat := by
      have hlt := bits.isLt
      rw [BitVec.toInt_eq_msb_cond, if_pos hsign, BitVec.toNat_not, Int.negSucc_eq]
      omega
    rw [hint, Int.testBit]
    change (!(~~~bits).getLsbD n) = _
    rw [BitVec.getLsbD_not]
    split <;> simp [*]

theorem toInt_and (x y : BitVec width) : (x &&& y).toInt = x.toInt.land y.toInt := by
  refine eq_of_testBit fun n => ?_
  simp only [testBit_toInt, Int.testBit_land, BitVec.getLsbD_and, BitVec.msb_and]
  split <;> rfl

theorem toInt_or (x y : BitVec width) : (x ||| y).toInt = x.toInt.lor y.toInt := by
  refine eq_of_testBit fun n => ?_
  simp only [testBit_toInt, Int.testBit_lor, BitVec.getLsbD_or, BitVec.msb_or]
  split <;> rfl

theorem toInt_xor (x y : BitVec width) : (x ^^^ y).toInt = x.toInt.xor y.toInt := by
  refine eq_of_testBit fun n => ?_
  simp only [testBit_toInt, Int.testBit_lxor, BitVec.getLsbD_xor, BitVec.msb_xor]
  split <;> rfl

theorem toInt_not (x : BitVec width) (hwidth : 0 < width) : (~~~x).toInt = x.toInt.lnot := by
  refine eq_of_testBit fun n => ?_
  simp only [testBit_toInt, Int.testBit_lnot, BitVec.getLsbD_not, BitVec.msb_not, hwidth]
  split <;> simp [*]

end Word

/-- A digit that two integers share is counted twice in their sum, and any other one once. -/
theorem land_add_lor (n : Nat) (i j : Int) (hl : -2 ^ n ≤ i) (hu : i < 2 ^ n) :
    i.land j + i.lor j = i + j := by
  induction n generalizing i j with
  | zero =>
    have hzero : ∀ d, Int.testBit 0 d = false := fun d => testBit_ofNat_of_le (Nat.zero_le d)
    have hones : ∀ d, Int.testBit (-1) d = true := fun d => testBit_negSucc_of_le (Nat.zero_le d)
    obtain rfl | rfl : i = 0 ∨ i = -1 := by omega
    · have hand : Int.land 0 j = 0 := eq_of_testBit fun d => by simp [hzero]
      have hor : Int.lor 0 j = j := eq_of_testBit fun d => by simp [hzero]
      omega
    · have hand : Int.land (-1) j = j := eq_of_testBit fun d => by simp [hones]
      have hor : Int.lor (-1) j = -1 := eq_of_testBit fun d => by simp [hones]
      omega
  | succ n ih =>
    rw [pow_succ] at hl hu
    have hhalf := i.div2_val
    have hrest := ih i.div2 j.div2 (by omega) (by omega)
    rw [← i.bit_decomp, ← j.bit_decomp, Int.land_bit, Int.lor_bit]
    simp only [Int.bit_val]
    cases i.bodd <;> cases j.bodd <;> simp <;> omega

end Reckon
