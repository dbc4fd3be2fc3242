import Reckon.Proofs.Number.Value
import Reckon.Proofs.Number.Word
set_option autoImplicit false

namespace Reckon

/-- The casts: whether the result has a sign, and its number of bits. -/
def Operator.cast? : Operator → Option (Bool × Nat)
  | .i8 => some (true, 8)
  | .u8 => some (false, 8)
  | .i16 => some (true, 16)
  | .u16 => some (false, 16)
  | .i32 => some (true, 32)
  | .u32 => some (false, 32)
  | _ => none

variable {op : Operator} {signed : Bool} {width : Nat} {i : Int}

theorem InWidth.isShort (h : InWidth signed width i) (hwidth : width ≤ 32) : IsShort i := by
  have hpow : (2 : Int) ^ width ≤ 2 ^ 32 := pow_le_pow_right₀ (by decide) hwidth
  have hhalf : (2 : Int) ^ (width - 1) ≤ 2 ^ 32 := pow_le_pow_right₀ (by decide) (by omega)
  unfold IsShort
  cases signed <;> simp [InWidth] at h <;> omega

theorem Operator.unary_of_cast? (h : op.cast? = some (signed, width)) (x : Number) :
    0 < width ∧ width ≤ 32 ∧ op.unary x = .ofInt (Word.read signed (x.toWord.setWidth width)) := by
  unfold cast? at h
  split at h <;> cases h <;> exact ⟨by decide, by decide, rfl⟩

theorem Operator.exists_of_cast? (h : op.cast? = some (signed, width)) (x : Number) :
    ∃ v, IsResidue signed width x.saturated v ∧ op.unary x = .ofInt v := by
  obtain ⟨-, hwidth, hcast⟩ := unary_of_cast? h x
  refine ⟨_, ?_, hcast⟩
  rw [← Number.toInt_toWord]
  exact Word.isResidue_read signed x.toWord (by omega)

/-- A cast to `width` bits is the integer of that many bits that is congruent to the value, cut
toward zero and held between the bounds of 64 bits, and casts to fewer bits do not see whether
there was one to more bits before them. -/
theorem integer_casts (x : Number) :
    (∀ (op : Operator) (signed : Bool) (width : Nat), op.cast? = some (signed, width) →
      ∃ v : Int, (op.unary x).value? = some (v : ℚ) ∧ IsResidue signed width x.saturated v ∧
        ∀ w, IsResidue signed width x.saturated w → w = v) ∧
    ∀ (narrow wide : Operator) (signed signed' : Bool) (width width' : Nat),
      narrow.cast? = some (signed, width) → wide.cast? = some (signed', width') →
      width ≤ width' → narrow.unary (wide.unary x) = narrow.unary x := by
  constructor
  · intro op signed width hop
    obtain ⟨hpos, hwidth, -⟩ := Operator.unary_of_cast? hop x
    obtain ⟨v, hv, hcast⟩ := Operator.exists_of_cast? hop x
    have hshort := hv.inWidth.isShort hwidth
    exact ⟨v, Number.value?_of_eq_ofInt hcast hshort, hv, fun w hw => hw.unique hv hpos⟩
  · intro narrow wide signed signed' width width' hnarrow hwide hle
    obtain ⟨hpos, -, -⟩ := Operator.unary_of_cast? hnarrow x
    obtain ⟨-, hwidth, -⟩ := Operator.unary_of_cast? hwide x
    obtain ⟨v, hv, hcast⟩ := Operator.exists_of_cast? hwide x
    obtain ⟨u, hu, hdirect⟩ := Operator.exists_of_cast? hnarrow x
    obtain ⟨w, hw, hnested⟩ := Operator.exists_of_cast? hnarrow (wide.unary x)
    rw [hcast, (Number.cutsTo_ofInt (hv.inWidth.isShort hwidth)).saturated] at hw
    rw [hnested, hdirect, (hv.trans hw hle).unique hu hpos]

theorem integer_casts_negative :
    let x : Number := .finite true (601 * pow2 1073) ⟨601, 1073, by decide, by decide, rfl⟩
    x.saturated = -300 ∧ (Operator.u8.unary x).value? = some 212 ∧
      (Operator.i8.unary x).value? = some (-44) ∧
      Operator.u8.unary (Operator.i16.unary x) = Operator.u8.unary x := by
  intro x
  have hcut : 601 * pow2 1073 / one = 300 := by decide +kernel
  have hsaturated : x.saturated = -300 := by
    refine (Number.saturated_finite _).trans ?_
    rw [hcut]
    rfl
  obtain ⟨hcasts, hnested⟩ := integer_casts x
  obtain ⟨v, hv, -, hunique⟩ := hcasts .u8 false 8 rfl
  obtain ⟨w, hw, -, hunique'⟩ := hcasts .i8 true 8 rfl
  rw [hsaturated] at hunique hunique'
  obtain rfl := hunique 212 ⟨by decide, by simp [InWidth]⟩
  obtain rfl := hunique' (-44) ⟨by decide, by simp [InWidth]⟩
  exact ⟨hsaturated, hv, hw, hnested .u8 .i16 false true 8 16 rfl rfl (by decide)⟩

end Reckon
