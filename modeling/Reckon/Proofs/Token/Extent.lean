import Mathlib.Data.List.TakeWhile
import Reckon.Proofs.Token.Signs
/-!
How far a lexeme reaches. Every kind of token is cut off in its own way (`Lexeme.Cut`), and the
scanner cuts lexemes in these ways only (`Lexeme.first_cut`). A faulty numeral is a beginning of
what is left of the line (`Lexeme.first_fault`).
-/
set_option autoImplicit false

namespace Reckon.Lexeme

/-- A token of a kind with a text is cut off before the rest of a line: the third argument is what
it takes of the line. -/
inductive Cut : TokenKind → List Char → List Char → List Char → Prop where
  /-- A decimal numeral ends before the first character that is no digit, point or `e`, except for
  the minus signs of exponents. -/
  | decimal {value : Number} {c : Char} {cs rest : List Char} :
      startsNumber c = true → (∀ d ∈ rest.head?, startsNumber d = false ∧ d ≠ 'e') →
      Cut (.number value) (c :: cs) (c :: cs) rest
  | based {value : Number} {base : Nat} {marker : Char} {digits rest : List Char} :
      (base = 16 ∧ marker = 'x') ∨ (base = 2 ∧ marker = 'b') →
      (∀ d ∈ digits, digitValue? base d ≠ none) → (∀ d ∈ rest.head?, digitValue? base d = none) →
      Cut (.number value) ('0' :: marker :: digits) ('0' :: marker :: digits) rest
  | word {c : Char} {cs rest : List Char} :
      startsWord c = true → (∀ d ∈ cs, continuesWord d = true) →
      (∀ d ∈ rest.head?, continuesWord d = false) → Cut .text (c :: cs) (c :: cs) rest
  | quoted {quote : Char} {text rest : List Char} :
      isQuote quote = true → quote ∉ text → Cut .text text (quote :: (text ++ [quote])) rest
  /-- Without a second quote the text goes up to the end of the line. -/
  | unended {quote : Char} {text : List Char} :
      isQuote quote = true → quote ∉ text → Cut .text text (quote :: text) []
  | sign {op : Operator} {rest : List Char} :
      Operator.IsLongest (some op) (op.name.toList ++ rest) →
      Cut (.operator op) op.name.toList op.name.toList rest
  /-- A character that starts nothing else, the name of an operator neither. -/
  | other {c : Char} {rest : List Char} :
      isBlank c = false → startsNumber c = false → startsWord c = false → isQuote c = false →
      Operator.IsLongest none (c :: rest) → Cut .text [c] [c] rest

variable {start base value result : Nat} {c quote : Char} {cs digits text : List Char}
  {l : Lexeme} {e : LexicalError}

theorem Cut.ne_nil {kind : TokenKind} {piece rest : List Char} (h : Cut kind text piece rest) :
    piece ≠ [] := by
  cases h with
  | sign hlongest => exact Operator.name_ne_nil hlongest.1
  | _ => simp

theorem Cut.of_quote {kind : TokenKind} {piece rest : List Char} (h : Cut kind text piece rest)
    (hquote : isQuote quote = true) (hhead : piece.head? = some quote) :
    kind = .text ∧ (quote ∈ piece.tail ∨ rest = []) := by
  cases h with
  | @decimal _ c _ _ hnumber =>
    obtain rfl : c = quote := Option.some.inj hhead
    rw [startsNumber_of_isQuote hquote] at hnumber
    cases hnumber
  | based =>
    obtain rfl : '0' = quote := Option.some.inj hhead
    cases hquote
  | @word c _ _ hword =>
    obtain rfl : c = quote := Option.some.inj hhead
    rw [startsWord_eq_false (continuesWord_of_isQuote hquote)] at hword
    cases hword
  | @quoted mark text _ =>
    obtain rfl : mark = quote := Option.some.inj hhead
    exact ⟨rfl, .inl (by simp)⟩
  | unended => exact ⟨rfl, .inr rfl⟩
  | sign hlongest =>
    exact absurd (List.mem_of_mem_head? hhead) (Operator.quote_not_mem_name hlongest.1 hquote)
  | @other c _ _ _ _ hother =>
    obtain rfl : c = quote := Option.some.inj hhead
    rw [hquote] at hother
    cases hother

/-- A lexeme is cut off at the start of a text. -/
def CutsOff (l : Lexeme) (cs : List Char) : Prop :=
  ∃ piece rest, cs = piece ++ rest ∧ l.length = piece.length ∧ Cut l.kind l.text piece rest

theorem decimalRun_append_rest (cs : List Char) :
    ∃ rest, cs = decimalRun cs ++ rest ∧ ∀ d ∈ rest.head?, startsNumber d = false ∧ d ≠ 'e' := by
  induction cs using decimalRun.induct with
  | case1 => exact ⟨[], rfl, by simp⟩
  | case2 cs ih =>
    obtain ⟨rest, hcs, hstop⟩ := ih
    refine ⟨rest, ?_, hstop⟩
    rw [decimalRun, List.cons_append, List.cons_append, ← hcs]
  | case3 c cs hne hstarts ih =>
    obtain ⟨rest, hcs, hstop⟩ := ih
    refine ⟨rest, ?_, hstop⟩
    rw [decimalRun, if_pos hstarts, List.cons_append, ← hcs]
    exact hne
  | case4 c cs hne hstarts =>
    refine ⟨c :: cs, ?_, ?_⟩
    · rw [decimalRun, if_neg hstarts, List.nil_append]
      exact hne
    · simpa using hstarts

theorem appendDigits_append_rest (h : appendDigits base value cs = .ok (result, digits)) :
    ∃ rest, cs = digits ++ rest ∧ (∀ d ∈ digits, digitValue? base d ≠ none) ∧
      ∀ d ∈ rest.head?, digitValue? base d = none := by
  induction cs generalizing value digits with
  | nil =>
    cases h
    exact ⟨[], rfl, by simp, by simp⟩
  | cons c cs ih =>
    simp only [appendDigits] at h
    split at h
    · rename_i hnone
      cases h
      exact ⟨c :: cs, rfl, by simp, by simpa using hnone⟩
    · rename_i digit hdigit
      split at h
      · cases h
      · split at h
        · rename_i hrest
          cases h
          obtain ⟨rest, hcs, hdigits, hstop⟩ := ih hrest
          refine ⟨rest, by rw [hcs, List.cons_append], ?_, hstop⟩
          exact List.forall_mem_cons.2 ⟨by simp [hdigit], hdigits⟩
        · cases h

theorem appendDigits_fault (h : appendDigits base value cs = .error digits) : digits <+: cs := by
  induction cs generalizing value digits with
  | nil => cases h
  | cons c cs ih =>
    simp only [appendDigits] at h
    split at h
    · cases h
    · split at h
      · cases h
        exact ⟨cs, rfl⟩
      · split at h
        · cases h
        · rename_i hrest
          cases h
          exact List.cons_prefix_cons.2 ⟨rfl, ih hrest⟩

theorem decimalRun_cons (hc : startsNumber c = true) (cs : List Char) :
    decimalRun (c :: cs) = c :: decimalRun cs := by
  rw [decimalRun, hc]
  · rfl
  · rintro us rfl
    exact absurd hc (by decide)

theorem decimal_cut (hc : startsNumber c = true) (h : decimal start (c :: cs) = .ok l) :
    l.CutsOff (c :: cs) := by
  obtain ⟨rest, hrest, hstop⟩ := decimalRun_append_rest (c :: cs)
  rw [decimalRun_cons hc] at hrest
  simp only [decimal, decimalRun_cons hc] at h
  split at h
  · cases h
    exact ⟨c :: decimalRun cs, rest, hrest, rfl, .decimal hc hstop⟩
  · cases h

theorem based_cut {marker : Char} (hbase : (base = 16 ∧ marker = 'x') ∨ (base = 2 ∧ marker = 'b'))
    (h : based start base ['0', marker] cs = .ok l) : l.CutsOff ('0' :: marker :: cs) := by
  simp only [based] at h
  split at h
  · rename_i digits hdigits
    cases h
    obtain ⟨rest, hcs, hall, hstop⟩ := appendDigits_append_rest hdigits
    refine ⟨'0' :: marker :: digits, rest, by simp [hcs], ?_, .based hbase hall hstop⟩
    simp only [List.length_cons, List.length_nil]
    omega
  · cases h

theorem number_eq_decimal (hx : ¬ ['0', 'x'] <+: cs) (hb : ¬ ['0', 'b'] <+: cs) :
    number start cs = decimal start cs := by
  rw [number]
  · rintro us rfl
    exact hx ⟨us, rfl⟩
  · rintro us rfl
    exact hb ⟨us, rfl⟩

theorem number_cut (hc : startsNumber c = true) (h : number start (c :: cs) = .ok l) :
    l.CutsOff (c :: cs) := by
  unfold number at h
  split at h
  · rename_i us heq
    rw [heq]
    exact based_cut (.inl ⟨rfl, rfl⟩) h
  · rename_i us heq
    rw [heq]
    exact based_cut (.inr ⟨rfl, rfl⟩) h
  · exact decimal_cut hc h

theorem takeWhile_append_rest (p : Char → Bool) (cs : List Char) :
    ∃ rest, cs = cs.takeWhile p ++ rest ∧ (∀ d ∈ cs.takeWhile p, p d = true) ∧
      ∀ d ∈ rest.head?, p d = false := by
  refine ⟨cs.dropWhile p, List.takeWhile_append_dropWhile.symm,
    fun d hd => List.mem_takeWhile_imp hd, fun d hd => ?_⟩
  have hstop := List.head?_dropWhile_not p cs
  rwa [hd] at hstop

theorem word_cut (hc : startsWord c = true) (cs : List Char) : (word c cs).CutsOff (c :: cs) := by
  obtain ⟨rest, hcs, hall, hstop⟩ := takeWhile_append_rest continuesWord cs
  exact ⟨c :: cs.takeWhile continuesWord, rest, congrArg (c :: ·) hcs, rfl, .word hc hall hstop⟩

theorem bne_of_not_mem (h : quote ∉ text) : ∀ c ∈ text, (c != quote) = true := by
  intro c hc
  simpa using fun heq : c = quote => h (heq ▸ hc)

theorem quoted_closed (h : quote ∉ text) (rest : List Char) :
    quoted quote (text ++ quote :: rest) = ⟨.text, text, text.length + 2⟩ := by
  have htake : (text ++ quote :: rest).takeWhile (fun c => c != quote) = text := by
    rw [List.takeWhile_append_of_pos (bne_of_not_mem h)]
    simp
  simp [quoted, htake]

theorem quoted_unended (h : quote ∉ text) : quoted quote text = ⟨.text, text, text.length + 1⟩ := by
  have htake : text.takeWhile (fun c => c != quote) = text :=
    List.takeWhile_eq_self_iff.2 (bne_of_not_mem h)
  simp [quoted, htake]

theorem quoted_cut (hquote : isQuote quote = true) (cs : List Char) :
    (quoted quote cs).CutsOff (quote :: cs) := by
  by_cases hmem : quote ∈ cs
  · obtain ⟨text, rest, rfl, hfree⟩ := List.eq_append_cons_of_mem hmem
    rw [quoted_closed hfree]
    exact ⟨quote :: (text ++ [quote]), rest, by simp, by simp, .quoted hquote hfree⟩
  · rw [quoted_unended hmem]
    exact ⟨quote :: cs, [], by simp, rfl, .unended hquote hmem⟩

theorem first_quote (hquote : isQuote quote = true) (start : Nat) (cs : List Char) :
    first start quote cs = .ok (quoted quote cs) := by
  have hnumber := startsNumber_of_isQuote hquote
  have hword := startsWord_eq_false (continuesWord_of_isQuote hquote)
  simp [first, hnumber, hword, hquote]

theorem sign_cut (hblank : isBlank c = false) (hnumber : startsNumber c = false)
    (hword : startsWord c = false) (hquote : isQuote c = false) (cs : List Char) :
    (sign c cs).CutsOff (c :: cs) := by
  cases hlongest : Operator.longest? (c :: cs) with
  | none =>
    have hnone := Operator.longest?_eq_iff.1 hlongest
    simp only [sign, hlongest]
    exact ⟨[c], cs, rfl, rfl, .other hblank hnumber hword hquote hnone⟩
  | some op =>
    have hsome := Operator.longest?_eq_iff.1 hlongest
    obtain ⟨rest, hrest⟩ := hsome.2.1
    rw [← hrest] at hsome
    simp only [sign, hlongest]
    exact ⟨op.name.toList, rest, hrest.symm, String.length_toList.symm, .sign hsome⟩

theorem first_cut (hblank : isBlank c = false) (h : first start c cs = .ok l) :
    l.CutsOff (c :: cs) := by
  unfold first at h
  split at h
  · rename_i hnumber
    exact number_cut hnumber h
  · rename_i hnumber
    split at h
    · rename_i hword
      cases h
      exact word_cut hword cs
    · rename_i hword
      split at h
      · rename_i hquote
        cases h
        exact quoted_cut hquote cs
      · rename_i hquote
        cases h
        exact sign_cut hblank (by simpa using hnumber) (by simpa using hword)
          (by simpa using hquote) cs

theorem CutsOff.length_pos (h : l.CutsOff cs) : 0 < l.length := by
  obtain ⟨piece, rest, -, hlength, hcut⟩ := h
  rw [hlength]
  exact List.length_pos_iff.2 hcut.ne_nil

theorem CutsOff.length_le (h : l.CutsOff cs) : l.length ≤ cs.length := by
  obtain ⟨piece, rest, rfl, hlength, -⟩ := h
  simp only [hlength, List.length_append]
  omega

theorem decimal_fault (hc : startsNumber c = true) (h : decimal start (c :: cs) = .error e) :
    e.start = start ∧ ∃ ds, e.text.toList = c :: ds ∧ ds <+: cs := by
  obtain ⟨rest, hrest, -⟩ := decimalRun_append_rest cs
  simp only [decimal, decimalRun_cons hc] at h
  split at h
  · cases h
  · cases h
    exact ⟨rfl, decimalRun cs, String.toList_ofList, rest, hrest.symm⟩

theorem based_fault {marker : Char} (h : based start base ['0', marker] cs = .error e) :
    e.start = start ∧ ∃ ds, e.text.toList = '0' :: ds ∧ ds <+: marker :: cs := by
  simp only [based] at h
  split at h
  · cases h
  · rename_i digits hdigits
    cases h
    exact ⟨rfl, marker :: digits, String.toList_ofList,
      List.cons_prefix_cons.2 ⟨rfl, appendDigits_fault hdigits⟩⟩

theorem first_fault (h : first start c cs = .error e) :
    e.start = start ∧ ∃ ds, e.text.toList = c :: ds ∧ ds <+: cs := by
  unfold first at h
  split at h
  · rename_i hnumber
    unfold number at h
    split at h
    · rename_i us heq
      obtain ⟨rfl, rfl⟩ := List.cons.inj heq
      exact based_fault h
    · rename_i us heq
      obtain ⟨rfl, rfl⟩ := List.cons.inj heq
      exact based_fault h
    · exact decimal_fault hnumber h
  · split at h
    · cases h
    · split at h <;> cases h

end Reckon.Lexeme

namespace Reckon.Scan

theorem chars_of_lexeme {start : Nat} {c : Char} {cs : List Char} {l : Lexeme}
    (hc : Lexeme.isBlank c = false) (hl : Lexeme.first start c cs = .ok l) :
    chars start (c :: cs) =
      ⟨l.toToken start :: (chars (start + l.length) ((c :: cs).drop l.length)).tokens,
        (chars (start + l.length) ((c :: cs).drop l.length)).failure⟩ := by
  obtain ⟨n, hn⟩ := Nat.exists_eq_succ_of_ne_zero (Lexeme.first_cut hc hl).length_pos.ne'
  have hstart : start + 1 + (l.length - 1) = start + l.length := by omega
  rw [chars_of_first hc hl, hstart, hn, List.drop_succ_cons, Nat.succ_sub_one]

end Reckon.Scan
