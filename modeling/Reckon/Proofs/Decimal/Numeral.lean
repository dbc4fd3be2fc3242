import Reckon.Decimal.Shortest
import Reckon.Proofs.Number.Rounding
set_option autoImplicit false

namespace Reckon

structure Exponent where
  negative : Bool
  digits : List Char
  isDigit : ∀ c ∈ digits, c.isDigit = true
  ne_nil : digits ≠ []

namespace Exponent

def chars (x : Exponent) : List Char := 'e' :: ((if x.negative then ['-'] else []) ++ x.digits)

def value (x : Exponent) : Int :=
  if x.negative then -(Nat.ofDigitChars 10 x.digits 0 : Int) else Nat.ofDigitChars 10 x.digits 0

end Exponent

/-- Digits before a point, after it, or both; without a point all digits are before it. -/
structure Numeral where
  whole : List Char
  fraction? : Option (List Char)
  exponent? : Option Exponent
  isDigit : ∀ c ∈ whole ++ fraction?.getD [], c.isDigit = true
  ne_nil : whole ++ fraction?.getD [] ≠ []

theorem pow10_pos (n : Nat) : 0 < pow10 n := Nat.pow_pos (by decide)

theorem mul_pow5_mul_pow2 (k n : Nat) : k * Nat.pow 5 n * pow2 n = k * pow10 n := by
  rw [Nat.mul_assoc, pow10, pow2]
  exact congrArg (k * ·) (Nat.mul_pow 5 2 n).symm

theorem pow2_le_mul_pow5 {k : Nat} (hk : 0 < k) (n : Nat) : pow2 (2 * n) ≤ k * Nat.pow 5 n := by
  have hfour : pow2 (2 * n) = Nat.pow 4 n := Nat.pow_mul 2 2 n
  rw [hfour]
  exact Nat.le_trans (Nat.pow_le_pow_left (by decide) n) (Nat.le_mul_of_pos_left _ hk)

/-- A low exponent does not make a zero of a decimal whose digits make up for it. -/
theorem Decimal.nearest_mul_pow5 {k n : Nat} (hk : 0 < k) (hn : 0 < n) :
    nearest ⟨k * Nat.pow 5 n, -(n : Int)⟩ =
      Number.ofRatio false (k * Nat.pow 5 n * one) (pow10 n) := by
  have hdigits := pow2_le_mul_pow5 hk n
  have hlog : 2 * n < Nat.log2 (k * Nat.pow 5 n) + 1 :=
    lt_of_pow2_lt (Nat.lt_of_le_of_lt hdigits (lt_pow2_log2 _))
  have hne : k * Nat.pow 5 n ≠ 0 := by
    have := pow2_pos (2 * n)
    omega
  have hneg : -(n : Int) < 0 := by omega
  have hlarge : ¬ 310 ≤ -(n : Int) := by omega
  have hsmall : ¬ -(n : Int) + (Nat.log2 (k * Nat.pow 5 n) : Int) < -400 := by omega
  simp only [nearest, ratio, if_neg hne, if_neg hlarge, if_neg hsmall, if_pos hneg, Int.natAbs_neg,
    Int.natAbs_natCast]

theorem Decimal.nearest_exact {units : Nat} (h : Representable units) :
    (Decimal.exact units).nearest = .finite false units h := by
  by_cases hzero : units = 0
  · subst hzero
    have hdigits : (Decimal.exact 0).digits = 0 := by simp only [Decimal.exact, Nat.zero_mul]
    rw [Decimal.nearest, if_pos hdigits, Number.zero]
  · have hpos : 0 < units := Nat.pos_of_ne_zero hzero
    have hnear := Decimal.nearest_mul_pow5 hpos (by decide : 0 < 1074)
    have hexact : Decimal.exact units = ⟨units * Nat.pow 5 1074, -((1074 : Nat) : Int)⟩ := rfl
    simp only [one, mul_pow5_mul_pow2] at hnear
    rw [hexact, hnear, Number.ofRatio_mul false h (pow10_pos 1074)]

namespace Numeral

def fraction (n : Numeral) : List Char := n.fraction?.getD []

def exponentChars (n : Numeral) : List Char := (n.exponent?.map Exponent.chars).getD []

def pointChars (n : Numeral) : List Char := (n.fraction?.map ('.' :: ·)).getD []

def chars (n : Numeral) : List Char := n.whole ++ (n.pointChars ++ n.exponentChars)

def decimal (n : Numeral) : Decimal :=
  ⟨Nat.ofDigitChars 10 (n.whole ++ n.fraction) 0,
    (n.exponent?.map Exponent.value).getD 0 - (n.fraction.length : Int)⟩

variable {n : Numeral} {c : Char}

theorem isDigit_of_mem_whole (h : c ∈ n.whole) : c.isDigit = true :=
  n.isDigit c (List.mem_append_left _ h)

theorem isDigit_of_mem_fraction (h : c ∈ n.fraction) : c.isDigit = true :=
  n.isDigit c (List.mem_append_right _ h)

theorem mem_pointChars (h : c ∈ n.pointChars) : c = '.' ∨ c.isDigit = true := by
  cases hfraction : n.fraction? with
  | none => simp [pointChars, hfraction] at h
  | some ds =>
    rcases List.mem_cons.1 (by simpa [pointChars, hfraction] using h) with rfl | hc
    · exact .inl rfl
    · exact .inr (n.isDigit c (by simp [hfraction, hc]))

theorem mem_exponentChars (h : c ∈ n.exponentChars) : c ∈ ['e', '-'] ∨ c.isDigit = true := by
  cases hx : n.exponent? with
  | none => simp [exponentChars, hx] at h
  | some x =>
    have hc : c = 'e' ∨ (x.negative = true ∧ c = '-') ∨ c ∈ x.digits := by
      simpa [exponentChars, hx, Exponent.chars] using h
    rcases hc with rfl | ⟨-, rfl⟩ | hc
    · exact .inl (by simp)
    · exact .inl (by simp)
    · exact .inr (x.isDigit c hc)

theorem span_digits {ds rest : List Char} (hds : ∀ c ∈ ds, c.isDigit = true)
    (hrest : ∀ c ∈ rest.head?, c.isDigit = false) :
    (ds ++ rest).takeWhile Char.isDigit = ds ∧ (ds ++ rest).dropWhile Char.isDigit = rest := by
  induction ds with
  | nil =>
    cases rest with
    | nil => simp
    | cons c cs => simp [hrest c rfl]
  | cons d ds ih =>
    obtain ⟨hd, hds⟩ := List.forall_mem_cons.1 hds
    simpa [hd] using ih hds

theorem readNatural?_digits {ds : List Char} (hne : ds ≠ []) (hds : ∀ c ∈ ds, c.isDigit = true) :
    Decimal.readNatural? ds = some (Nat.ofDigitChars 10 ds 0) := by
  have hall : ds.all Char.isDigit = true := List.all_eq_true.2 hds
  simp [Decimal.readNatural?, hne, hall]

theorem readExponent?_chars (x : Exponent) : Decimal.readExponent? x.chars = some x.value := by
  obtain ⟨negative, digits, hdigits, hne⟩ := x
  have hread := readNatural?_digits hne hdigits
  cases negative with
  | true => simp [Exponent.chars, Exponent.value, Decimal.readExponent?, hread]
  | false =>
    -- A digit comes next, so it is no sign.
    cases digits with
    | nil => exact absurd rfl hne
    | cons d ds =>
      have hd : d.isDigit = true := hdigits d (by simp)
      have hminus : d ≠ '-' := by
        rintro rfl
        exact absurd hd (by decide)
      have hplus : d ≠ '+' := by
        rintro rfl
        exact absurd hd (by decide)
      simp [Exponent.chars, Exponent.value, Decimal.readExponent?, hminus, hplus, hread]

theorem readExponent?_exponentChars (n : Numeral) :
    Decimal.readExponent? n.exponentChars = some ((n.exponent?.map Exponent.value).getD 0) := by
  cases h : n.exponent? with
  | none => simp [exponentChars, h, Decimal.readExponent?]
  | some x => simp [exponentChars, h, readExponent?_chars]

theorem head_exponentChars (n : Numeral) : ∀ c ∈ n.exponentChars.head?, c = 'e' := by
  cases h : n.exponent? with
  | none => simp [exponentChars, h]
  | some x => simp [exponentChars, h, Exponent.chars]

theorem span_whole (n : Numeral) {rest : List Char}
    (hrest : ∀ c ∈ rest.head?, c.isDigit = false) :
    (n.whole ++ rest).takeWhile Char.isDigit = n.whole ∧
      (n.whole ++ rest).dropWhile Char.isDigit = rest :=
  span_digits (fun _ hc => isDigit_of_mem_whole hc) hrest

theorem span_fraction (n : Numeral) {rest : List Char}
    (hrest : ∀ c ∈ rest.head?, c.isDigit = false) :
    (n.fraction ++ rest).takeWhile Char.isDigit = n.fraction ∧
      (n.fraction ++ rest).dropWhile Char.isDigit = rest :=
  span_digits (fun _ hc => isDigit_of_mem_fraction hc) hrest

/-- What comes after the digits of a numeral is read as its exponent. -/
theorem read?_append (n : Numeral) {tail : List Char} (htail : ∀ c ∈ tail.head?, c = 'e') :
    Decimal.read? (n.whole ++ (n.pointChars ++ tail)) =
      (Decimal.readExponent? tail).map fun e =>
        ⟨Nat.ofDigitChars 10 (n.whole ++ n.fraction) 0, e - (n.fraction.length : Int)⟩ := by
  have hexponent : ∀ c ∈ tail.head?, c.isDigit = false := by
    intro c hc
    rw [htail c hc]
    rfl
  have hne := n.ne_nil
  cases hfraction : n.fraction? with
  | none =>
    obtain ⟨htake, hdrop⟩ := n.span_whole hexponent
    have hpoint : (tail.head? == some '.') = false := by
      cases hhead : tail.head? with
      | none => rfl
      | some c =>
        rw [htail c hhead]
        rfl
    have hwhole : n.whole ≠ [] := by simpa [hfraction] using hne
    simp [Decimal.read?, pointChars, hfraction, htake, hdrop, hpoint, hwhole, fraction]
  | some ds =>
    have hds : n.fraction = ds := by simp [fraction, hfraction]
    have hpoint : ∀ c ∈ ('.' :: (ds ++ tail)).head?, c.isDigit = false := by simp
    obtain ⟨htake, hdrop⟩ := n.span_whole hpoint
    obtain ⟨htake', hdrop'⟩ := n.span_fraction hexponent
    rw [hds] at htake' hdrop'
    have hsome : ¬ (n.whole = [] ∧ ds = []) := by simpa [hfraction] using hne
    simp [Decimal.read?, pointChars, hfraction, htake, hdrop, htake', hdrop', hsome, hds]

theorem read?_chars (n : Numeral) : Decimal.read? n.chars = some n.decimal := by
  rw [chars, read?_append n n.head_exponentChars, readExponent?_exponentChars]
  rfl

theorem isDigit_of_mem_toDigits {k : Nat} {c : Char} (h : c ∈ Nat.toDigits 10 k) :
    c.isDigit = true :=
  Nat.isDigit_of_mem_toDigits (by decide) (by decide) h

def ofNat (digits places : Nat) : Numeral where
  whole := Nat.toDigits 10 digits
  fraction? := none
  exponent? := some ⟨true, Nat.toDigits 10 places, fun _ => isDigit_of_mem_toDigits,
    Nat.toDigits_ne_nil⟩
  isDigit := by
    intro c hc
    exact isDigit_of_mem_toDigits (by simpa using hc)
  ne_nil := by simp

theorem decimal_ofNat (digits places : Nat) :
    (ofNat digits places).decimal = ⟨digits, -(places : Int)⟩ := by
  have hread : ∀ k, Nat.ofDigitChars 10 (Nat.toDigits 10 k) 0 = k :=
    fun k => Nat.ofDigitChars_toDigits (by decide) (by decide)
  simp [decimal, ofNat, fraction, Exponent.value, hread]

def exact (units : Nat) : Numeral := ofNat (Decimal.exact units).digits 1074

theorem nearest_exact {units : Nat} (h : Representable units) :
    (exact units).decimal.nearest = .finite false units h := by
  have hdecimal : (exact units).decimal = Decimal.exact units := decimal_ofNat _ 1074
  rw [hdecimal, Decimal.nearest_exact h]

end Numeral

end Reckon
