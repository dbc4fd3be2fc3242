import Mathlib.Data.Nat.Digits.Defs
import Reckon.Proofs.Number.Value
import Reckon.Proofs.Token.Literal
set_option autoImplicit false

namespace Reckon

namespace Lexeme

def digits : List Char := "0123456789abcdef".toList

/-- What a digit of either case is worth. Characters that are none are worth sixteen. -/
def worth (c : Char) : Nat := digits.idxOf c.toLower

def isDigitOf (base : Nat) (c : Char) : Bool := decide (worth c < base)

/-- The whole number that digits of a base denote. -/
def wholeOf (base : Nat) (ds : List Char) : Nat := Nat.ofDigits base (ds.map worth).reverse

structure IsShortest (p : List Char → Prop) (text first : List Char) : Prop where
  isPrefix : first <+: text
  holds : p first
  shortest : ∀ other, other <+: text → p other → first.length ≤ other.length

variable {base : Nat} {c : Char} {cs first : List Char} {p : List Char → Prop}

theorem IsShortest.cons (h : IsShortest (fun ds => p (c :: ds)) cs first) (hnil : ¬ p []) :
    IsShortest p (c :: cs) (c :: first) where
  isPrefix := List.cons_prefix_cons.2 ⟨rfl, h.isPrefix⟩
  holds := h.holds
  shortest other hprefix hother := by
    cases other with
    | nil => exact absurd hother hnil
    | cons d ds =>
      obtain ⟨rfl, hds⟩ := List.cons_prefix_cons.1 hprefix
      exact Nat.succ_le_succ (h.shortest ds hds hother)

theorem isShortest_singleton (h : p [c]) (hnil : ¬ p []) (cs : List Char) :
    IsShortest p (c :: cs) [c] where
  isPrefix := ⟨cs, rfl⟩
  holds := h
  shortest other _ hother := by
    cases other with
    | nil => exact absurd hother hnil
    | cons d ds => simp

theorem not_isDigit_of_le (hc : 128 ≤ c.toNat) : c.isDigit = false := by
  cases hdigit : c.isDigit with
  | false => rfl
  | true =>
    have hle : c.toNat ≤ 57 := (Char.isDigit_iff_toNat.1 hdigit).2
    omega

theorem worth_of_le (hc : 128 ≤ c.toNat) : worth c = 16 := by
  have hlower : c.toLower = c := by
    unfold Char.toLower
    split
    · rename_i hupper
      have hle : c.toNat ≤ 90 := hupper.2
      omega
    · rfl
  have hmem : c ∉ digits := by
    intro hmem
    have hsmall : digits.all (fun d => decide (d.toNat < 128)) = true := by decide
    have hlt : c.toNat < 128 := of_decide_eq_true (List.all_eq_true.1 hsmall c hmem)
    omega
  rw [worth, hlower, List.idxOf_eq_length hmem]
  rfl

theorem digitValue?_eq (hbase : base = 16 ∨ base = 2) (c : Char) :
    digitValue? base c = if isDigitOf base c then some (worth c) else none := by
  rcases Nat.lt_or_ge c.toNat 128 with hlt | hge
  · have hascii : ∀ n < 128, digitValue? base (Char.ofNat n) =
        if isDigitOf base (Char.ofNat n) then some (worth (Char.ofNat n)) else none := by
      rcases hbase with rfl | rfl <;> decide +kernel
    simpa only [Char.ofNat_toNat] using hascii c.toNat hlt
  · have hnone : isDigitOf base c = false := by
      rcases hbase with rfl | rfl <;> simp [isDigitOf, worth_of_le hge]
    have hlower : ¬ c.toNat ≤ 102 := by omega
    have hupper : ¬ c.toNat ≤ 70 := by omega
    simp [digitValue?, hnone, not_isDigit_of_le hge, hlower, hupper]

theorem wholeOf_concat (base : Nat) (ds : List Char) (c : Char) :
    wholeOf base (ds ++ [c]) = wholeOf base ds * base + worth c := by
  simp [wholeOf, Nat.ofDigits_cons]
  ring

theorem wholeOf_append (base : Nat) (ds es : List Char) :
    wholeOf base (ds ++ es) = wholeOf base ds * base ^ es.length + wholeOf base es := by
  simp [wholeOf, Nat.ofDigits_append]
  ring

theorem wholeOf_le_append (hbase : 0 < base) (ds es : List Char) :
    wholeOf base ds ≤ wholeOf base (ds ++ es) := by
  have hpow : 0 < base ^ es.length := Nat.pow_pos hbase
  rw [wholeOf_append]
  exact Nat.le_add_right_of_le (Nat.le_mul_of_pos_right _ hpow)

theorem appendDigits_cons (hbase : base = 16 ∨ base = 2) (hc : isDigitOf base c = true)
    (seen cs : List Char) :
    appendDigits base (wholeOf base seen) (c :: cs) =
      if 2 ^ 32 ≤ wholeOf base (seen ++ [c]) then .error [c]
      else
        match appendDigits base (wholeOf base (seen ++ [c])) cs with
        | .ok (result, ds) => .ok (result, c :: ds)
        | .error ds => .error (c :: ds) := by
  rw [appendDigits, digitValue?_eq hbase, if_pos hc]
  simp only [wholeOf_concat]
  rfl

theorem appendDigits_of_not_isDigitOf (hbase : base = 16 ∨ base = 2)
    (hc : isDigitOf base c = false) (value : Nat) (cs : List Char) :
    appendDigits base value (c :: cs) = .ok (value, []) := by
  simp [appendDigits, digitValue?_eq hbase, hc]

theorem appendDigits_of_lt (hbase : base = 16 ∨ base = 2) (seen cs : List Char)
    (h : wholeOf base (seen ++ cs.takeWhile (isDigitOf base)) < 2 ^ 32) :
    appendDigits base (wholeOf base seen) cs =
      .ok (wholeOf base (seen ++ cs.takeWhile (isDigitOf base)),
        cs.takeWhile (isDigitOf base)) := by
  have hpos : 0 < base := by omega
  induction cs generalizing seen with
  | nil => simp [appendDigits]
  | cons c cs ih =>
    cases hc : isDigitOf base c with
    | false => simp [appendDigits_of_not_isDigitOf hbase, hc]
    | true =>
      rw [List.takeWhile_cons_of_pos hc, List.append_cons] at h ⊢
      have hsmall := Nat.lt_of_le_of_lt (wholeOf_le_append hpos (seen ++ [c]) _) h
      rw [appendDigits_cons hbase hc, if_neg (Nat.not_le.2 hsmall), ih (seen ++ [c]) h]

theorem appendDigits_of_le (hbase : base = 16 ∨ base = 2) (seen cs : List Char)
    (hseen : wholeOf base seen < 2 ^ 32)
    (h : 2 ^ 32 ≤ wholeOf base (seen ++ cs.takeWhile (isDigitOf base))) :
    ∃ first, appendDigits base (wholeOf base seen) cs = .error first ∧
      IsShortest (fun ds => 2 ^ 32 ≤ wholeOf base (seen ++ ds)) (cs.takeWhile (isDigitOf base))
        first := by
  have hnil : ¬ 2 ^ 32 ≤ wholeOf base (seen ++ []) := by
    rw [List.append_nil]
    exact Nat.not_le.2 hseen
  induction cs generalizing seen with
  | nil => exact absurd h hnil
  | cons c cs ih =>
    cases hc : isDigitOf base c with
    | false =>
      rw [List.takeWhile_cons_of_neg (by simp [hc])] at h
      exact absurd h hnil
    | true =>
      rw [List.takeWhile_cons_of_pos hc] at h ⊢
      rw [appendDigits_cons hbase hc]
      by_cases hlarge : 2 ^ 32 ≤ wholeOf base (seen ++ [c])
      · exact ⟨[c], if_pos hlarge, isShortest_singleton hlarge hnil _⟩
      · rw [List.append_cons] at h
        obtain ⟨first, hfirst, hshortest⟩ := ih (seen ++ [c]) (Nat.not_le.1 hlarge) h
          (by rwa [List.append_nil])
        simp only [← List.append_cons] at hshortest
        exact ⟨c :: first, by rw [if_neg hlarge, hfirst], hshortest.cons hnil⟩

theorem based_of_lt (hbase : base = 16 ∨ base = 2) (start : Nat) (marker cs : List Char)
    (h : wholeOf base (cs.takeWhile (isDigitOf base)) < 2 ^ 32) :
    based start base marker cs =
      .ok ⟨.number (.ofInt (wholeOf base (cs.takeWhile (isDigitOf base)) : Nat)),
        marker ++ cs.takeWhile (isDigitOf base),
        marker.length + (cs.takeWhile (isDigitOf base)).length⟩ := by
  have hdigits := appendDigits_of_lt hbase [] cs h
  have hnone : wholeOf base [] = 0 := rfl
  rw [List.nil_append, hnone] at hdigits
  rw [based, hdigits]

theorem based_of_le (hbase : base = 16 ∨ base = 2) (start : Nat) (marker cs : List Char)
    (h : 2 ^ 32 ≤ wholeOf base (cs.takeWhile (isDigitOf base))) :
    ∃ first, IsShortest (fun ds => 2 ^ 32 ≤ wholeOf base ds) (cs.takeWhile (isDigitOf base)) first ∧
      based start base marker cs =
        .error (.overflow base (String.ofList (marker ++ first)) start) := by
  have hnone : wholeOf base [] = 0 := rfl
  obtain ⟨first, hfirst, hshortest⟩ := appendDigits_of_le hbase [] cs (by rw [hnone]; decide) h
  rw [hnone] at hfirst
  exact ⟨first, hshortest, by rw [based, hfirst]⟩

theorem first_based {marker : Char} (hbase : (base = 16 ∧ marker = 'x') ∨ (base = 2 ∧ marker = 'b'))
    (start : Nat) (cs : List Char) :
    Lexeme.first start '0' (marker :: cs) = based start base ['0', marker] cs := by
  rcases hbase with ⟨rfl, rfl⟩ | ⟨rfl, rfl⟩ <;> rfl

end Lexeme

/-- Behind a marker all digits of its base are taken. If their number has at most 32 bits, the token
spans the marker and the digits and has just that value, and what comes next starts anew; otherwise
the marker and the digits up to the first one with which there are more bits are the fault of the
line. -/
theorem based_literal (source : String) {place base : Nat} {marker : Char} {cs : List Char}
    (hbase : (base = 16 ∧ marker = 'x') ∨ (base = 2 ∧ marker = 'b'))
    (hplace : Scan.Reaches 0 source.toList place ('0' :: marker :: cs)) :
    let scan := Scan.line source
    let digits := cs.takeWhile (Lexeme.isDigitOf base)
    let rest := cs.dropWhile (Lexeme.isDigitOf base)
    let stop := place + 2 + digits.length
    source.toList.drop place = '0' :: marker :: (digits ++ rest) ∧
      (Lexeme.wholeOf base digits < 2 ^ 32 →
        (∃ x : Number, x.value? = some (Lexeme.wholeOf base digits : ℚ) ∧
          (⟨.number x, String.ofList ('0' :: marker :: digits), place, stop⟩ : Token) ∈
            scan.tokens) ∧
        Scan.Reaches 0 source.toList stop rest ∧
        ∀ c ∈ rest.head?, Lexeme.isBlank c = false →
          (∃ t ∈ scan.tokens, t.start = stop) ∨ ∃ e, scan.failure = some e ∧ e.start = stop) ∧
      (2 ^ 32 ≤ Lexeme.wholeOf base digits →
        ∃ first, Lexeme.IsShortest (fun ds => 2 ^ 32 ≤ Lexeme.wholeOf base ds) digits first ∧
          scan.failure =
            some (.overflow base (String.ofList ('0' :: marker :: first)) place) ∧
          ∀ t ∈ scan.tokens, t.stop ≤ place) := by
  intro scan digits rest stop
  have hradix : base = 16 ∨ base = 2 := hbase.imp And.left And.left
  have hsplit : digits ++ rest = cs := List.takeWhile_append_dropWhile
  have hzero : Lexeme.isBlank '0' = false := rfl
  obtain ⟨-, hdrop, found, hscan, hfound⟩ := hplace.exists_tokens
  have hscan : scan = _ := hscan
  refine ⟨hsplit ▸ hdrop, fun hlt => ?_, fun hle => ?_⟩
  · have hfirst := (Lexeme.first_based hbase place cs).trans
      (Lexeme.based_of_lt hradix place ['0', marker] cs hlt)
    have hlength : place + (2 + digits.length) = stop := by omega
    have hbehind : ('0' :: marker :: cs).drop (2 + digits.length) = rest := by
      rw [← hsplit, Nat.add_comm]
      exact List.drop_left
    have hnext : Scan.Reaches place ('0' :: marker :: cs) stop rest := by
      refine .lexeme hzero hfirst ?_
      show Scan.Reaches (place + (2 + digits.length))
        (('0' :: marker :: cs).drop (2 + digits.length)) stop rest
      rw [hlength, hbehind]
      exact .here stop rest
    have hshort : IsShort (Lexeme.wholeOf base digits : ℤ) := by
      unfold IsShort
      omega
    refine ⟨⟨_, Number.value?_ofInt hshort, ?_⟩, hplace.trans hnext, fun c hc hblank => ?_⟩
    · rw [hscan, Scan.chars_of_lexeme hzero hfirst, ← hlength]
      exact List.mem_append_right _ List.mem_cons_self
    · obtain ⟨cs', hrest⟩ := List.head?_eq_some_iff.1 hc
      rw [hrest] at hnext
      exact (hplace.trans hnext).exists_start hblank
  · obtain ⟨first, hshortest, hfault⟩ := Lexeme.based_of_le hradix place ['0', marker] cs hle
    have hfirst := (Lexeme.first_based hbase place cs).trans hfault
    rw [hscan, Scan.chars_of_fault hzero hfirst]
    exact ⟨first, hshortest, rfl, by simpa using hfound⟩

theorem based_literal_overflow :
    (Scan.Reaches 0 "0b0112".toList 0 ['0', 'b', '0', '1', '1', '2'] ∧
      (∃ x : Number, x.value? = some 3 ∧
        (⟨.number x, "0b011", 0, 5⟩ : Token) ∈ (Scan.line "0b0112").tokens) ∧
      Scan.Reaches 0 "0b0112".toList 5 ['2']) ∧
    (Scan.Reaches 0 "7 0x80000000Fe".toList 2
        ['0', 'x', '8', '0', '0', '0', '0', '0', '0', '0', 'F', 'e'] ∧
      (Scan.line "7 0x80000000Fe").failure = some (.overflow 16 "0x80000000F" 2)) := by
  constructor
  · have hplace : Scan.Reaches 0 "0b0112".toList 0 ['0', 'b', '0', '1', '1', '2'] := .here 0 _
    have hdigits : ['0', '1', '1', '2'].takeWhile (Lexeme.isDigitOf 2) = ['0', '1', '1'] := by
      decide
    have hrest : ['0', '1', '1', '2'].dropWhile (Lexeme.isDigitOf 2) = ['2'] := by decide
    have hwhole : Lexeme.wholeOf 2 ['0', '1', '1'] = 3 := by decide
    obtain ⟨-, hsmall, -⟩ := based_literal "0b0112" (.inr ⟨rfl, rfl⟩) hplace
    rw [hdigits, hrest, hwhole] at hsmall
    obtain ⟨hvalue, hnext, -⟩ := hsmall (by decide)
    exact ⟨hplace, hvalue, hnext⟩
  · have hplace : Scan.Reaches 0 "7 0x80000000Fe".toList 2
        ['0', 'x', '8', '0', '0', '0', '0', '0', '0', '0', 'F', 'e'] :=
      .lexeme rfl rfl (.blank rfl (.here 2 _))
    let digits := ['8', '0', '0', '0', '0', '0', '0', '0', 'F', 'e']
    have hdigits : digits.takeWhile (Lexeme.isDigitOf 16) = digits := by decide
    have hsmall : ∀ n < 9, Lexeme.wholeOf 16 (digits.take n) < 2 ^ 32 := by decide
    obtain ⟨-, -, hlarge⟩ := based_literal "7 0x80000000Fe" (.inl ⟨rfl, rfl⟩) hplace
    change 2 ^ 32 ≤ Lexeme.wholeOf 16 (digits.takeWhile (Lexeme.isDigitOf 16)) → _ at hlarge
    rw [hdigits] at hlarge
    obtain ⟨first, hfirst, hfailure, -⟩ := hlarge (by decide)
    have htake : first = digits.take first.length := List.prefix_iff_eq_take.1 hfirst.isPrefix
    have hle : first.length ≤ 9 := hfirst.shortest (digits.take 9) (by decide) (by decide)
    have hge : 9 ≤ first.length := by
      by_contra hlt
      have hholds := hfirst.holds
      rw [htake] at hholds
      exact absurd hholds (Nat.not_le.2 (hsmall _ (Nat.not_le.1 hlt)))
    obtain rfl : first = digits.take 9 := by rwa [Nat.le_antisymm hle hge] at htake
    exact ⟨hplace, hfailure⟩

end Reckon
