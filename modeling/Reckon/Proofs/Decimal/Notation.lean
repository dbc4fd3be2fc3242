import Reckon.Decimal.Notation
import Reckon.Proofs.Decimal.Nearest
/-!
The text of a decimal reads back. In the positional notation and with an exponent below zero it is
a numeral for the same number (`exists_numeral`); with a plus sign before the exponent it is none,
but it can be read all the same (`exists_read?_text`).
-/
set_option autoImplicit false

namespace Reckon

namespace Decimal

def exponentDigits (n : Nat) : List Char :=
  let ds := Nat.toDigits 10 n
  if ds.length < 2 then '0' :: ds else ds

theorem exponentText_eq (e : Int) :
    exponentText e = (if e < 0 then '-' else '+') :: exponentDigits e.natAbs := rfl

theorem isDigit_exponentDigits (n : Nat) : ∀ c ∈ exponentDigits n, c.isDigit = true := by
  intro c hc
  unfold exponentDigits at hc
  dsimp only at hc
  split at hc
  · rcases List.mem_cons.1 hc with rfl | hc
    · decide
    · exact Numeral.isDigit_of_mem_toDigits hc
  · exact Numeral.isDigit_of_mem_toDigits hc

theorem exponentDigits_ne_nil (n : Nat) : exponentDigits n ≠ [] := by
  unfold exponentDigits
  dsimp only
  split
  · exact List.cons_ne_nil _ _
  · exact Nat.toDigits_ne_nil

theorem ofDigitChars_exponentDigits (n : Nat) : Nat.ofDigitChars 10 (exponentDigits n) 0 = n := by
  unfold exponentDigits
  dsimp only
  split
  · rw [Nat.ofDigitChars_cons]
    exact Nat.ofDigitChars_ten_toDigits
  · exact Nat.ofDigitChars_ten_toDigits

theorem readExponent?_exponentText (e : Int) : readExponent? ('e' :: exponentText e) = some e := by
  have hread := Numeral.readNatural?_digits (exponentDigits_ne_nil e.natAbs)
    (isDigit_exponentDigits e.natAbs)
  rw [ofDigitChars_exponentDigits] at hread
  rw [exponentText_eq]
  split
  · have hvalue : -(e.natAbs : Int) = e := by omega
    rw [readExponent?, hread]
    exact congrArg some hvalue
  · have hvalue : (e.natAbs : Int) = e := by omega
    rw [readExponent?, hread]
    exact congrArg some hvalue

def mantissa (d : Decimal) : Numeral where
  whole := (Nat.toDigits 10 d.digits).take 1
  fraction? :=
    if (Nat.toDigits 10 d.digits).length ≤ 1 then none
    else some ((Nat.toDigits 10 d.digits).drop 1)
  exponent? := none
  isDigit := by
    intro c hc
    refine Numeral.isDigit_of_mem_toDigits (k := d.digits) ?_
    rcases List.mem_append.1 hc with hc | hc
    · exact List.mem_of_mem_take hc
    · split at hc
      · cases hc
      · exact List.mem_of_mem_drop hc
  ne_nil := by
    intro h
    have hwhole := (List.append_eq_nil_iff.1 h).1
    exact Nat.toDigits_ne_nil ((List.take_eq_nil_iff.1 hwhole).resolve_left (by decide))

theorem mantissa_fraction (d : Decimal) :
    d.mantissa.fraction = (Nat.toDigits 10 d.digits).drop 1 := by
  simp only [Numeral.fraction, mantissa]
  split
  · rename_i h
    exact (List.drop_eq_nil_iff.2 h).symm
  · rfl

theorem scientific_eq (d : Decimal) (e : Int) :
    scientific (Nat.toDigits 10 d.digits) e =
      d.mantissa.whole ++ (d.mantissa.pointChars ++ 'e' :: exponentText e) := by
  simp only [scientific, Numeral.pointChars, mantissa]
  split <;> simp

theorem mantissa_digits (d : Decimal) :
    Nat.ofDigitChars 10 (d.mantissa.whole ++ d.mantissa.fraction) 0 = d.digits := by
  rw [mantissa_fraction]
  simp only [mantissa, List.take_append_drop]
  exact Nat.ofDigitChars_ten_toDigits

theorem length_mantissa_fraction (d : Decimal) :
    (d.mantissa.fraction.length : Int) = d.point - 1 - d.exponent := by
  have hpos : 0 < (Nat.toDigits 10 d.digits).length := Nat.length_toDigits_pos
  rw [mantissa_fraction, List.length_drop]
  unfold point
  omega

theorem read?_scientific (d : Decimal) :
    read? (scientific (Nat.toDigits 10 d.digits) (d.point - 1)) = some d := by
  have hhead : ∀ c ∈ ('e' :: exponentText (d.point - 1)).head?, c = 'e' := by simp
  rw [scientific_eq, Numeral.read?_append _ hhead, readExponent?_exponentText, Option.map_some,
    mantissa_digits, length_mantissa_fraction]
  have hexponent : d.point - 1 - (d.point - 1 - d.exponent) = d.exponent := by omega
  rw [hexponent]

def withExponent (d : Decimal) (n : Nat) : Numeral :=
  { d.mantissa with
    exponent? :=
      some ⟨true, exponentDigits n, isDigit_exponentDigits n, exponentDigits_ne_nil n⟩ }

theorem chars_withExponent {d : Decimal} (h : d.point - 1 < 0) :
    (d.withExponent (d.point - 1).natAbs).chars =
      scientific (Nat.toDigits 10 d.digits) (d.point - 1) := by
  rw [scientific_eq, exponentText_eq, if_pos h]
  rfl

def pointed (whole fraction : List Char) (h : ∀ c ∈ whole ++ fraction, c.isDigit = true)
    (hne : whole ++ fraction ≠ []) : Numeral :=
  ⟨whole, some fraction, none, h, hne⟩

theorem chars_pointed (whole fraction : List Char) (h : ∀ c ∈ whole ++ fraction, c.isDigit = true)
    (hne : whole ++ fraction ≠ []) :
    (pointed whole fraction h hne).chars = whole ++ '.' :: fraction := by
  simp [pointed, Numeral.chars, Numeral.pointChars, Numeral.exponentChars]

theorem decimal_pointed (whole fraction : List Char)
    (h : ∀ c ∈ whole ++ fraction, c.isDigit = true) (hne : whole ++ fraction ≠ []) :
    (pointed whole fraction h hne).decimal =
      ⟨Nat.ofDigitChars 10 (whole ++ fraction) 0, -(fraction.length : Int)⟩ := by
  simp [pointed, Numeral.decimal, Numeral.fraction]

section Positional

variable {ds : List Char} {place : Int}

theorem positional_before (h : place ≤ 0) (ds : List Char) :
    positional ds place = ['0'] ++ '.' :: (List.replicate place.natAbs '0' ++ ds) := by
  simp [positional, h]

theorem positional_within (hpos : 0 < place) (h : place.natAbs < ds.length) :
    positional ds place = ds.take place.natAbs ++ '.' :: ds.drop place.natAbs := by
  have hmin : min place.natAbs ds.length = place.natAbs := Nat.min_eq_left (Nat.le_of_lt h)
  have hrest : ¬ ds.length ≤ place.natAbs := Nat.not_le.2 h
  simp [positional, Int.not_le.2 hpos, hmin, hrest]

theorem positional_after (hpos : 0 < place) (h : ds.length ≤ place.natAbs) :
    positional ds place =
      (ds ++ List.replicate (place.natAbs - ds.length) '0') ++ '.' :: ['0'] := by
  simp [positional, Int.not_le.2 hpos, List.take_of_length_le h, List.drop_of_length_le h]

theorem exists_numeral_before (hdigits : ∀ c ∈ ds, c.isDigit = true) (h : place ≤ 0) :
    ∃ n : Numeral, n.chars = positional ds place ∧
      n.decimal = ⟨Nat.ofDigitChars 10 ds 0, place - ds.length⟩ := by
  let fraction := List.replicate place.natAbs '0' ++ ds
  have hall : ∀ c ∈ ['0'] ++ fraction, c.isDigit = true := by
    simpa [fraction, or_imp, forall_and] using hdigits
  have hvalue : Nat.ofDigitChars 10 (['0'] ++ fraction) 0 = Nat.ofDigitChars 10 ds 0 := by
    simp [fraction, Nat.ofDigitChars_append, Nat.ofDigitChars_cons,
      Nat.ofDigitChars_replicate_zero]
  have hexponent : -(fraction.length : Int) = place - ds.length := by
    simp only [fraction, List.length_append, List.length_replicate]
    omega
  refine ⟨pointed ['0'] fraction hall (by simp), ?_, ?_⟩
  · rw [chars_pointed, positional_before h]
  · rw [decimal_pointed, hvalue, hexponent]

theorem exists_numeral_within (hdigits : ∀ c ∈ ds, c.isDigit = true) (hpos : 0 < place)
    (h : place.natAbs < ds.length) :
    ∃ n : Numeral, n.chars = positional ds place ∧
      n.decimal = ⟨Nat.ofDigitChars 10 ds 0, place - ds.length⟩ := by
  have hsame := List.take_append_drop place.natAbs ds
  have hne : ds ≠ [] := List.ne_nil_of_length_pos (Nat.zero_lt_of_lt h)
  have hexponent : -((ds.drop place.natAbs).length : Int) = place - ds.length := by
    rw [List.length_drop]
    omega
  refine ⟨pointed _ _ (hsame.symm ▸ hdigits) (hsame.symm ▸ hne), ?_, ?_⟩
  · rw [chars_pointed, positional_within hpos h]
  · rw [decimal_pointed, hsame, hexponent]

/-- Zeros fill the places up to the point, and one stands after it. -/
theorem exists_numeral_after (hdigits : ∀ c ∈ ds, c.isDigit = true) (hpos : 0 < place)
    (h : ds.length ≤ place.natAbs) :
    ∃ n : Numeral, n.chars = positional ds place ∧
      n.decimal.nearest = nearest ⟨Nat.ofDigitChars 10 ds 0, place - ds.length⟩ := by
  let zeros := place.natAbs - ds.length
  have hall : ∀ c ∈ (ds ++ List.replicate zeros '0') ++ ['0'], c.isDigit = true := by
    simpa [or_imp, forall_and] using hdigits
  have hvalue : Nat.ofDigitChars 10 ((ds ++ List.replicate zeros '0') ++ ['0']) 0 =
      Nat.ofDigitChars 10 ds 0 * pow10 (zeros + 1) := by
    rw [List.append_assoc, ← List.replicate_succ', Nat.ofDigitChars_append,
      Nat.ofDigitChars_replicate_zero, Nat.mul_comm]
    rfl
  have hexponent : -((['0'] : List Char).length : Int) + ((zeros + 1 : Nat) : Int) =
      place - ds.length := by
    simp only [List.length_singleton]
    omega
  refine ⟨pointed _ ['0'] hall (by simp), ?_, ?_⟩
  · rw [chars_pointed, positional_after hpos h]
  · rw [decimal_pointed, hvalue, nearest_mul_pow10, hexponent]

end Positional

theorem exists_numeral_positional (d : Decimal) :
    ∃ n : Numeral, n.chars = positional (Nat.toDigits 10 d.digits) d.point ∧
      n.decimal.nearest = d.nearest := by
  have hdigits : ∀ c ∈ Nat.toDigits 10 d.digits, c.isDigit = true :=
    fun c hc => Numeral.isDigit_of_mem_toDigits hc
  have hread : (⟨Nat.ofDigitChars 10 (Nat.toDigits 10 d.digits) 0,
      d.point - (Nat.toDigits 10 d.digits).length⟩ : Decimal) = d := by
    rw [Nat.ofDigitChars_ten_toDigits, point, Int.add_sub_cancel]
  rcases Int.lt_or_le 0 d.point with hpos | hpos
  · rcases Nat.lt_or_ge d.point.natAbs (Nat.toDigits 10 d.digits).length with hshort | hlong
    · obtain ⟨n, hchars, hdecimal⟩ := exists_numeral_within hdigits hpos hshort
      exact ⟨n, hchars, by rw [hdecimal, hread]⟩
    · obtain ⟨n, hchars, hnearest⟩ := exists_numeral_after hdigits hpos hlong
      exact ⟨n, hchars, by rw [hnearest, hread]⟩
  · obtain ⟨n, hchars, hdecimal⟩ := exists_numeral_before hdigits hpos
    exact ⟨n, hchars, by rw [hdecimal, hread]⟩

theorem text_eq (d : Decimal) :
    d.text = if -4 < d.point ∧ d.point ≤ 16 then positional (Nat.toDigits 10 d.digits) d.point
      else scientific (Nat.toDigits 10 d.digits) (d.point - 1) := rfl

/-- Up to sixteen places before the point the notation is a numeral for the same number. -/
theorem exists_numeral {d : Decimal} (h : d.point ≤ 16) :
    ∃ n : Numeral, n.chars = d.text ∧ n.decimal.nearest = d.nearest := by
  by_cases hlow : -4 < d.point
  · rw [text_eq, if_pos ⟨hlow, h⟩]
    exact exists_numeral_positional d
  · have hneg : d.point - 1 < 0 := by omega
    rw [text_eq, if_neg (fun hpoint => hlow hpoint.1)]
    refine ⟨d.withExponent (d.point - 1).natAbs, chars_withExponent hneg, ?_⟩
    have hread := Numeral.read?_chars (d.withExponent (d.point - 1).natAbs)
    rw [chars_withExponent hneg, read?_scientific] at hread
    rw [← Option.some.inj hread]

theorem text_of_lt_point {d : Decimal} (h : 16 < d.point) :
    d.text = d.mantissa.whole ++
      (d.mantissa.pointChars ++ 'e' :: '+' :: exponentDigits (d.point - 1).natAbs) := by
  have hnonneg : ¬ d.point - 1 < 0 := by omega
  rw [text_eq, if_neg (fun hpoint => Int.not_le.2 h hpoint.2), scientific_eq, exponentText_eq,
    if_neg hnonneg]

theorem exists_read?_text (d : Decimal) :
    ∃ d', read? d.text = some d' ∧ d'.nearest = d.nearest := by
  rcases Int.lt_or_le 16 d.point with h | h
  · refine ⟨d, ?_, rfl⟩
    have hnonneg : ¬ d.point - 1 < 0 := by omega
    have hread := read?_scientific d
    rwa [scientific_eq, exponentText_eq, if_neg hnonneg, ← text_of_lt_point h] at hread
  · obtain ⟨n, hchars, hnearest⟩ := exists_numeral h
    exact ⟨n.decimal, hchars ▸ n.read?_chars, hnearest⟩

variable {units : Nat} {h : Representable units}

theorem nearest_of_readsBack {d : Decimal} (hread : readsBack units d = true) :
    d.nearest = .finite false units h := by
  unfold readsBack at hread
  split at hread
  · rename_i negative u hu hnear
    obtain ⟨rfl, -⟩ := units_of_nearest hnear
    obtain rfl : u = units := by simpa using hread
    exact hnear
  · cases hread

theorem neighbour?_readsBack {place : Int} {d : Decimal} (hd : neighbour? units place = some d) :
    readsBack units d = true := by
  have hchoice : ∀ near far : Decimal, (if readsBack units near then some near
      else if readsBack units far then some far else none) = some d → readsBack units d = true := by
    intro near far h
    split at h
    · cases h
      assumption
    · split at h
      · cases h
        assumption
      · cases h
  exact hchoice _ _ hd

theorem nearest_coarsest (grids : Nat) (place : Int) :
    (coarsest units grids place).nearest = .finite false units h := by
  induction grids generalizing place with
  | zero => exact nearest_exact h
  | succ grids ih =>
    unfold coarsest
    split
    · rename_i d hd
      exact nearest_of_readsBack (neighbour?_readsBack hd)
    · exact ih (place - 1)

/-- The shortest decimal reads back. -/
theorem nearest_shortest (h : Representable units) :
    (shortest units).nearest = .finite false units h := nearest_coarsest 18 _

end Decimal

end Reckon
