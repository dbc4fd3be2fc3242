import Reckon.Proofs.Decimal.Notation
set_option autoImplicit false

namespace Reckon

namespace Numeral

def natural (k : Nat) : Numeral := { ofNat k 0 with exponent? := none }

theorem chars_natural (k : Nat) : (natural k).chars = Nat.toDigits 10 k := by
  simp [natural, ofNat, chars, pointChars, exponentChars]

theorem decimal_natural (k : Nat) : (natural k).decimal = ⟨k, 0⟩ := by
  simp [natural, ofNat, decimal, fraction, Nat.ofDigitChars_ten_toDigits]

end Numeral

namespace Number

variable {units : Nat} {h : Representable units}

def IsShortWhole (units : Nat) : Prop := units % one = 0 ∧ units / one < pow10 16

theorem display_of_whole (hwhole : IsShortWhole units) :
    (finite false units h).display = Nat.toDigits 10 (units / one) := by
  have hshown : (finite false units h).displayedWhole? = some ((units / one : Nat) : Int) := by
    rw [displayedWhole?, if_pos (show units % one = 0 ∧ units / one < pow10 16 from hwhole)]
    rfl
  have hsign : ¬ ((units / one : Nat) : Int) < 0 := Int.not_lt.2 (Int.natCast_nonneg _)
  simp only [display, hshown, signText, hsign, decide_false, Bool.false_eq_true, if_false,
    List.nil_append, Int.natAbs_natCast]

theorem display_of_not_whole (hwhole : ¬ IsShortWhole units) :
    (finite false units h).display = (Decimal.shortest units).text := by
  have hshown : (finite false units h).displayedWhole? = none := by
    simp only [displayedWhole?]
    exact if_neg hwhole
  have hne : units ≠ 0 := by
    rintro rfl
    exact hwhole ⟨Nat.zero_mod one, (Nat.zero_div one).symm ▸ pow10_pos 16⟩
  simp only [display, hshown, written, signText, magnitudeText, if_neg hne, Bool.false_eq_true,
    if_false, List.nil_append]

theorem nearest_natural (hwhole : IsShortWhole units) :
    (Numeral.natural (units / one)).decimal.nearest = .finite false units h := by
  have hunits : units / one * pow10 0 * one = units * 1 := by
    rw [show pow10 0 = 1 from rfl, Nat.mul_one, Nat.mul_one]
    exact Nat.div_mul_cancel (Nat.dvd_of_mod_eq_zero hwhole.1)
  rw [Numeral.decimal_natural, Decimal.nearest_eq_ofRatio, Decimal.ratio_of_nonneg (Int.le_refl 0)]
  simp only [Int.natAbs_zero, hunits]
  exact ofRatio_mul false h Nat.one_pos

theorem exists_read?_display (h : Representable units) :
    ∃ d, Decimal.read? (finite false units h).display = some d ∧
      d.nearest = finite false units h := by
  by_cases hwhole : IsShortWhole units
  · rw [display_of_whole hwhole, ← Numeral.chars_natural]
    exact ⟨_, Numeral.read?_chars _, nearest_natural hwhole⟩
  · obtain ⟨d, hread, hnear⟩ := Decimal.exists_read?_text (Decimal.shortest units)
    rw [display_of_not_whole hwhole]
    exact ⟨d, hread, hnear.trans (Decimal.nearest_shortest h)⟩

theorem display_zero (negative : Bool) : (zero negative).display = ['0'] := by
  cases negative <;> decide +kernel

theorem display_negative (hne : units ≠ 0) (h : Representable units) :
    (finite true units h).display = '-' :: (finite false units h).display := by
  by_cases hwhole : IsShortWhole units
  · have hshown : (finite true units h).displayedWhole? = some (-((units / one : Nat) : Int)) := by
      rw [displayedWhole?, if_pos (show units % one = 0 ∧ units / one < pow10 16 from hwhole)]
      rfl
    have hpos : units / one ≠ 0 := by
      intro hzero
      rw [← Nat.div_mul_cancel (Nat.dvd_of_mod_eq_zero hwhole.1), hzero, Nat.zero_mul] at hne
      exact hne rfl
    have hsign : -((units / one : Nat) : Int) < 0 := by
      generalize units / one = k at hpos
      omega
    rw [display_of_whole hwhole]
    simp only [display, hshown, signText, hsign, decide_true, if_true, List.cons_append,
      List.nil_append, Int.natAbs_neg, Int.natAbs_natCast]
  · have hshown : (finite true units h).displayedWhole? = none := by
      simp only [displayedWhole?]
      exact if_neg hwhole
    rw [display_of_not_whole hwhole]
    simp only [display, hshown, written, signText, magnitudeText, if_neg hne, if_true,
      List.cons_append, List.nil_append]

theorem exists_numeral_display (hlt : units < pow10 16 * one) (h : Representable units) :
    ∃ n : Numeral, n.chars = (finite false units h).display ∧
      n.decimal.nearest = finite false units h := by
  by_cases hwhole : IsShortWhole units
  · exact ⟨Numeral.natural (units / one), by rw [display_of_whole hwhole, Numeral.chars_natural],
      nearest_natural hwhole⟩
  · have hshortest := Decimal.nearest_shortest h
    have hpoint : (Decimal.shortest units).point ≤ 16 := by
      refine Int.not_lt.1 fun hlarge => ?_
      have hdigits : (Decimal.shortest units).digits ≠ 0 := by
        intro hzero
        rw [Decimal.nearest, if_pos hzero] at hshortest
        cases hshortest
        exact hwhole ⟨Nat.zero_mod one, (Nat.zero_div one).symm ▸ pow10_pos 16⟩
      have hle := Decimal.pow10_le_of_nearest 16 (by decide) hshortest hdigits hlarge
      exact absurd hlt (Nat.not_lt.2 hle)
    obtain ⟨n, hchars, hnear⟩ := Decimal.exists_numeral hpoint
    exact ⟨n, hchars.trans (display_of_not_whole hwhole).symm, hnear.trans hshortest⟩

/-- From `10 ^ 16` on it is displayed with an exponent and a plus sign. -/
theorem display_of_le (hle : pow10 16 * one ≤ units) (h : Representable units) :
    ∃ (n : Numeral) (ds : List Char), (∀ c ∈ ds, c.isDigit = true) ∧
      (finite false units h).display = n.whole ++ (n.pointChars ++ 'e' :: '+' :: ds) := by
  have hone : 0 < one := pow2_pos 1074
  have hwhole : ¬ IsShortWhole units := by
    rintro ⟨-, hlt⟩
    exact absurd ((Nat.div_lt_iff_lt_mul hone).1 hlt) (Nat.not_lt.2 hle)
  have hpoint : 16 < (Decimal.shortest units).point := by
    refine Int.not_le.1 fun hsmall => ?_
    have hupper := Decimal.le_pow10_of_nearest 16 (by decide) (Decimal.nearest_shortest h) hsmall
    -- Only the power of ten itself is left, and it has a single digit.
    rw [Nat.le_antisymm hupper hle] at hsmall
    exact absurd hsmall (by decide +kernel)
  exact ⟨_, _, Decimal.isDigit_exponentDigits _,
    (display_of_not_whole hwhole).trans (Decimal.text_of_lt_point hpoint)⟩

theorem exists_parts_display (h : Representable units) :
    ∃ (n : Numeral) (tail : List Char),
      (finite false units h).display = n.whole ++ (n.pointChars ++ tail) ∧
        ∀ c ∈ tail, c ∈ ['e', '-', '+'] ∨ c.isDigit = true := by
  rcases Nat.lt_or_ge units (pow10 16 * one) with hlt | hle
  · obtain ⟨n, hchars, -⟩ := exists_numeral_display hlt h
    refine ⟨n, n.exponentChars, hchars.symm, fun c hc => ?_⟩
    exact (Numeral.mem_exponentChars hc).imp_left (List.mem_append_left ['+'])
  · obtain ⟨n, ds, hds, hdisplay⟩ := display_of_le hle h
    refine ⟨n, 'e' :: '+' :: ds, hdisplay, fun c hc => ?_⟩
    simp only [List.mem_cons] at hc
    rcases hc with rfl | rfl | hc
    · exact .inl (by simp)
    · exact .inl (by simp)
    · exact .inr (hds c hc)

/-- Different magnitudes are displayed differently. -/
theorem display_injective {units' : Nat} {h' : Representable units'}
    (heq : (finite false units h).display = (finite false units' h').display) :
    finite false units h = finite false units' h' := by
  obtain ⟨d, hread, hnear⟩ := exists_read?_display h
  obtain ⟨d', hread', hnear'⟩ := exists_read?_display h'
  rw [heq, hread'] at hread
  obtain rfl : d' = d := Option.some.inj hread
  exact hnear.symm.trans hnear'

end Number

end Reckon
