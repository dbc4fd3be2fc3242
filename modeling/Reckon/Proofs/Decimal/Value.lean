import Mathlib.Data.List.TakeWhile
import Mathlib.Data.Rat.Cast.Order
import Mathlib.Tactic.FieldSimp
import Reckon.Proofs.Decimal.Nearest
import Reckon.Proofs.Number.Nearest
set_option autoImplicit false

namespace Reckon

namespace Decimal

def value (d : Decimal) : ℚ := d.digits * 10 ^ d.exponent

theorem value_mul_one (d : Decimal) : d.value * one = d.ratio.1 / d.ratio.2 := by
  have hten : ∀ n, ((pow10 n : Nat) : ℚ) = 10 ^ n := fun n => by simp [pow10]
  rcases Int.lt_or_le d.exponent 0 with he | he
  · have hpow : (10 : ℚ) ^ d.exponent = (10 ^ d.exponent.natAbs)⁻¹ := by
      rw [← zpow_natCast, ← zpow_neg]
      congr 1
      omega
    rw [ratio_of_neg he, value, hpow, hten, Nat.cast_mul, div_eq_mul_inv, mul_right_comm]
  · have hpow : (10 : ℚ) ^ d.exponent = 10 ^ d.exponent.natAbs := by
      rw [← zpow_natCast]
      congr 1
      omega
    rw [ratio_of_nonneg he, value, hpow, Nat.cast_mul, Nat.cast_mul, hten, Nat.cast_one, div_one]

/-- Reading rounds once, to the nearest value. -/
theorem isNearest_nearest (d : Decimal) : d.nearest.IsNearest d.value := by
  rw [nearest_eq_ofRatio]
  exact Number.isNearest_ofRatio d.ratio_snd_pos d.value_mul_one

end Decimal

namespace Numeral

def value (n : Numeral) : ℚ :=
  (Nat.ofDigitChars 10 n.whole 0 + Nat.ofDigitChars 10 n.fraction 0 / 10 ^ n.fraction.length) *
    10 ^ (n.exponent?.map Exponent.value).getD 0

theorem value_decimal (n : Numeral) : n.decimal.value = n.value := by
  have hdigits : Nat.ofDigitChars 10 (n.whole ++ n.fraction) 0 =
      10 ^ n.fraction.length * Nat.ofDigitChars 10 n.whole 0 +
        Nat.ofDigitChars 10 n.fraction 0 := by
    rw [Nat.ofDigitChars_append, Nat.ofDigitChars_eq_ofDigitChars_zero]
  rw [value, Decimal.value, decimal, hdigits]
  simp only [Nat.cast_add, Nat.cast_mul, Nat.cast_pow, Nat.cast_ofNat]
  rw [zpow_sub₀ (by norm_num), zpow_natCast]
  field_simp

theorem isNearest_decimal (n : Numeral) : n.decimal.nearest.IsNearest n.value :=
  n.value_decimal ▸ n.decimal.isNearest_nearest

variable {cs : List Char}

theorem of_readNatural? {k : Nat} (h : Decimal.readNatural? cs = some k) :
    (∀ c ∈ cs, c.isDigit = true) ∧ cs ≠ [] := by
  simp only [Decimal.readNatural?, Option.ite_none_left_eq_some, Bool.or_eq_true,
    List.isEmpty_iff, Bool.not_eq_true', not_or, Bool.not_eq_false, List.all_eq_true] at h
  exact ⟨h.1.2, h.1.1⟩

theorem exists_of_readExponent? {k : Int} (h : Decimal.readExponent? cs = some k)
    (hplus : '+' ∉ cs) : ∃ x? : Option Exponent, (x?.map Exponent.chars).getD [] = cs := by
  unfold Decimal.readExponent? at h
  split at h
  · exact ⟨none, rfl⟩
  · rename_i ds
    cases hread : Decimal.readNatural? ds with
    | none => simp [hread] at h
    | some n =>
      obtain ⟨hds, hne⟩ := of_readNatural? hread
      exact ⟨some ⟨true, ds, hds, hne⟩, rfl⟩
  · exact absurd (by simp) hplus
  · rename_i ds _ _
    cases hread : Decimal.readNatural? ds with
    | none => simp [hread] at h
    | some n =>
      obtain ⟨hds, hne⟩ := of_readNatural? hread
      exact ⟨some ⟨false, ds, hds, hne⟩, rfl⟩
  · cases h

/-- A text that is read is a numeral, as long as no plus sign stands in it. -/
theorem exists_of_read? {d : Decimal} (h : Decimal.read? cs = some d) (hplus : '+' ∉ cs) :
    ∃ n : Numeral, n.chars = cs := by
  have hall : ∀ ds : List Char, ∀ c ∈ ds.takeWhile Char.isDigit, c.isDigit = true :=
    fun ds c hc => List.mem_takeWhile_imp hc
  have hwhole : cs.takeWhile Char.isDigit ++ cs.dropWhile Char.isDigit = cs :=
    List.takeWhile_append_dropWhile
  simp only [Decimal.read?, Option.ite_none_left_eq_some, Bool.and_eq_true, List.isEmpty_iff] at h
  obtain ⟨hdigits, hexponent⟩ := h
  obtain ⟨k, hk, -⟩ := Option.map_eq_some_iff.1 hexponent
  have hplus : '+' ∉ cs.dropWhile Char.isDigit :=
    fun hmem => hplus ((List.dropWhile_suffix _).subset hmem)
  have hdigit := hall cs
  generalize cs.takeWhile Char.isDigit = whole at hwhole hdigits hdigit
  generalize cs.dropWhile Char.isDigit = rest at hwhole hdigits hk hplus
  by_cases hpoint : rest.head? = some '.'
  · obtain ⟨tail, rfl⟩ : ∃ tail, rest = '.' :: tail := List.head?_eq_some_iff.1 hpoint
    simp only [List.head?_cons, BEq.rfl, if_true, List.tail_cons] at hdigits hk
    obtain ⟨x?, hx⟩ := exists_of_readExponent? hk fun hmem =>
      hplus (List.mem_cons_of_mem _ ((List.dropWhile_suffix _).subset hmem))
    refine ⟨⟨whole, some (tail.takeWhile Char.isDigit), x?, ?_, ?_⟩, ?_⟩
    · intro c hc
      exact (List.mem_append.1 hc).elim (hdigit c) (hall tail c)
    · simpa using hdigits
    · simp [chars, pointChars, exponentChars, hx, ← hwhole]
  · have hfalse : (rest.head? == some '.') = false := by simpa using hpoint
    simp only [hfalse, Bool.false_eq_true, if_false] at hdigits hk
    obtain ⟨x?, hx⟩ := exists_of_readExponent? hk hplus
    refine ⟨⟨whole, none, x?, ?_, ?_⟩, ?_⟩
    · simpa using hdigit
    · simpa using hdigits
    · simp [chars, pointChars, exponentChars, hx, ← hwhole]

end Numeral

end Reckon
