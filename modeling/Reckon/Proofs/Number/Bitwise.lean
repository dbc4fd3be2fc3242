import Reckon.Proofs.Number.Value
import Reckon.Proofs.Number.Word
set_option autoImplicit false

namespace Reckon

inductive IsBitwise : Operator → (Int → Int → Int) → Prop where
  | and : IsBitwise .bitAnd Int.land
  | or : IsBitwise .bitOr Int.lor
  | xor : IsBitwise .bitXor Int.xor

variable {op : Operator} {f : Int → Int → Int} {x y : Number} {a b : Int}

theorem IsBitwise.exists_onWords (h : IsBitwise op f) :
    ∃ g : (width : Nat) → BitVec width → BitVec width → BitVec width,
      (∀ width v w, (g width v w).toInt = f v.toInt w.toInt) ∧
        ∀ x y, op.binary x y = .ofWord (g 64 x.toWord y.toWord) := by
  cases h with
  | and => exact ⟨fun _ v w => v &&& w, fun _ => Word.toInt_and, fun _ _ => rfl⟩
  | or => exact ⟨fun _ v w => v ||| w, fun _ => Word.toInt_or, fun _ _ => rfl⟩
  | xor => exact ⟨fun _ v w => v ^^^ w, fun _ => Word.toInt_xor, fun _ _ => rfl⟩

theorem isShort_toInt (bits : BitVec 54) : IsShort bits.toInt := ⟨bits.le_toInt, bits.toInt_lt⟩

theorem IsShort.toInt_ofInt (ha : IsShort a) : (BitVec.ofInt 54 a).toInt = a :=
  BitVec.toInt_ofInt_eq_self (by decide) ha.1 ha.2

/-- Short integers are those of 54 bits, of which a bit by bit operation makes 54 bits. -/
theorem IsBitwise.isShort (h : IsBitwise op f) (ha : IsShort a) (hb : IsShort b) :
    IsShort (f a b) := by
  obtain ⟨g, hg, -⟩ := h.exists_onWords
  rw [← ha.toInt_ofInt, ← hb.toInt_ofInt, ← hg]
  exact isShort_toInt _

theorem IsShort.lnot (ha : IsShort a) : IsShort a.lnot := by
  rw [← ha.toInt_ofInt, ← Word.toInt_not _ (by decide)]
  exact isShort_toInt _

theorem IsBitwise.binary_eq (h : IsBitwise op f) (hx : x.CutsTo a) (hy : y.CutsTo b) :
    op.binary x y = .ofInt (f a b) := by
  obtain ⟨g, hg, hbinary⟩ := h.exists_onWords
  rw [hbinary, Number.ofWord, hg, hx.toInt_toWord, hy.toInt_toWord]

theorem bitNot_eq (hx : x.CutsTo a) : Operator.bitNot.unary x = .ofInt a.lnot := by
  change Number.ofInt (~~~x.toWord).toInt = _
  rw [Word.toInt_not _ (by decide), hx.toInt_toWord]

theorem IsBitwise.cutsTo (h : IsBitwise op f) (hx : x.CutsTo a) (hy : y.CutsTo b) :
    (op.binary x y).CutsTo (f a b) :=
  h.binary_eq hx hy ▸ Number.cutsTo_ofInt (h.isShort hx.isShort hy.isShort)

theorem cutsTo_bitNot (hx : x.CutsTo a) : (Operator.bitNot.unary x).CutsTo a.lnot :=
  bitNot_eq hx ▸ Number.cutsTo_ofInt hx.isShort.lnot

theorem bitNot_bitAnd (hx : x.CutsTo a) (hy : y.CutsTo b) :
    Operator.bitNot.unary (Operator.bitAnd.binary x y) =
      Operator.bitOr.binary (Operator.bitNot.unary x) (Operator.bitNot.unary y) := by
  have hlaw : (a.land b).lnot = a.lnot.lor b.lnot := eq_of_testBit fun n => by simp
  rw [bitNot_eq (IsBitwise.and.cutsTo hx hy), hlaw,
    IsBitwise.or.binary_eq (cutsTo_bitNot hx) (cutsTo_bitNot hy)]

theorem bitXor_bitXor (hx : x.CutsTo a) (hy : y.CutsTo b) :
    Operator.bitXor.binary (Operator.bitXor.binary x y) y = .ofInt a := by
  have hlaw : (a.xor b).xor b = a := eq_of_testBit fun n => by simp
  rw [IsBitwise.xor.binary_eq (IsBitwise.xor.cutsTo hx hy) hy, hlaw]

theorem bitNot_bitNot (hx : x.CutsTo a) :
    Operator.bitNot.unary (Operator.bitNot.unary x) = .ofInt a := by
  have hlaw : a.lnot.lnot = a := eq_of_testBit fun n => by simp
  rw [bitNot_eq (cutsTo_bitNot hx), hlaw]

/-- On values that are short integers when cut toward zero the bit by bit operators are exact, stay
short and obey the laws of the operations on integers. -/
theorem bitwise_operators (hx : x.CutsTo a) (hy : y.CutsTo b) :
    let and := Operator.bitAnd.binary
    let or := Operator.bitOr.binary
    let xor := Operator.bitXor.binary
    let not := Operator.bitNot.unary
    (∀ op f, IsBitwise op f → (op.binary x y).value? = some (f a b : ℚ) ∧ IsShort (f a b)) ∧
      ((not x).value? = some (a.lnot : ℚ) ∧ IsShort a.lnot) ∧
      not (and x y) = or (not x) (not y) ∧
      (xor (xor x y) y).value? = some (a : ℚ) ∧
      (not (not x)).value? = some (a : ℚ) ∧
      ∃ u v : ℚ, (and x y).value? = some u ∧ (or x y).value? = some v ∧ u + v = a + b := by
  intro and or xor not
  have hbinary : ∀ op f, IsBitwise op f →
      (op.binary x y).value? = some (f a b : ℚ) ∧ IsShort (f a b) := by
    intro op f h
    have hshort := h.isShort hx.isShort hy.isShort
    exact ⟨Number.value?_of_eq_ofInt (h.binary_eq hx hy) hshort, hshort⟩
  have hnot := hx.isShort.lnot
  have hsum : (a.land b : ℚ) + a.lor b = a + b := by
    exact_mod_cast land_add_lor 53 a b hx.isShort.1 hx.isShort.2
  refine ⟨hbinary, ⟨Number.value?_of_eq_ofInt (bitNot_eq hx) hnot, hnot⟩, bitNot_bitAnd hx hy,
    Number.value?_of_eq_ofInt (bitXor_bitXor hx hy) hx.isShort,
    Number.value?_of_eq_ofInt (bitNot_bitNot hx) hx.isShort,
    a.land b, a.lor b, (hbinary _ _ .and).1, (hbinary _ _ .or).1, hsum⟩

theorem bitwise_operators_negative :
    let x : Number := .finite true (5 * pow2 1073) ⟨5, 1073, by decide, by decide, rfl⟩
    let y : Number := .ofInt (2 ^ 53 - 1)
    x.CutsTo (-2) ∧ y.CutsTo (2 ^ 53 - 1) ∧
      (Operator.bitAnd.binary x y).value? = some (2 ^ 53 - 2) ∧
      (Operator.bitNot.unary x).value? = some 1 := by
  intro x y
  have hcut : 5 * pow2 1073 / one = 2 := by decide +kernel
  have hx : x.CutsTo (-2) := by
    refine ⟨(Number.truncated?_finite _).trans ?_, by decide⟩
    rw [hcut]
    rfl
  have hy : y.CutsTo (2 ^ 53 - 1) := Number.cutsTo_ofInt (by decide)
  obtain ⟨hbinary, ⟨hnot, -⟩, -⟩ := bitwise_operators hx hy
  refine ⟨hx, hy, (hbinary _ _ .and).1.trans ?_, hnot.trans ?_⟩
  · have hand : Int.land (-2) (2 ^ 53 - 1) = 2 ^ 53 - 2 := by decide +kernel
    rw [hand]
    norm_num
  · have hlnot : Int.lnot (-2) = 1 := rfl
    rw [hlnot]
    norm_num

end Reckon
