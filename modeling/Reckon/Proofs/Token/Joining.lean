import Reckon.Proofs.Token.Extent
import Reckon.Proofs.Token.Position
/-!
No token reaches over a comma, a blank or a close parenthesis, except for a quoted text that does
not end before it (`Lexeme.first_ender`). So a text in front of such a character has the tokens
that it has by itself (`Scan.chars_ender`), and those of two texts with a comma between them are
those of the first, the comma, and those of the second (`Scan.chars_comma`).
-/
set_option autoImplicit false

namespace Reckon

def Scan.EndsInQuote (cs : List Char) : Prop :=
  ∃ t ∈ (Scan.chars 0 cs).tokens, ∃ quote rest, cs.drop t.start = quote :: rest ∧
    Lexeme.isQuote quote = true ∧ quote ∉ rest

def Token.comma (start : Nat) : Token := ⟨.text, ",", start, start + 1⟩

namespace Lexeme

def blanks : List Char := [' ', '\t', '\n', '\x0b', '\x0c', '\r']

def delimiters : List Char := ',' :: blanks

/-- The characters that no lexeme before them goes on with: a close parenthesis is an operator
alone. -/
def enders : List Char := ')' :: delimiters

theorem mem_enders_of_mark {mark : Char} (hmark : mark ∈ [',', ')']) : mark ∈ enders := by
  rcases (by simpa using hmark : mark = ',' ∨ mark = ')') with rfl | rfl <;> decide

theorem isBlank_iff {c : Char} : isBlank c = true ↔ c ∈ blanks := by
  have hblanks : blanks.all isBlank = true := by decide
  refine ⟨fun h => ?_, List.all_eq_true.1 hblanks c⟩
  have hcode : ∀ code : Fin 33, (code.val == 32 || 9 ≤ code.val && code.val ≤ 13) = true →
      Char.ofNat code.val ∈ blanks := by decide
  have hsmall : c.toNat < 33 := by
    simp only [isBlank, Bool.or_eq_true, beq_iff_eq, Bool.and_eq_true, decide_eq_true_iff] at h
    omega
  simpa only [Char.ofNat_toNat] using hcode ⟨c.toNat, hsmall⟩ (by simpa [isBlank] using h)

theorem ender_toNat_le {d : Char} (hd : d ∈ enders) : d.toNat ≤ 44 := by
  have hall : (enders.all fun d => decide (d.toNat ≤ 44)) = true := by decide
  simpa using List.all_eq_true.1 hall d hd

theorem continuesWord_ender {d : Char} (hd : d ∈ enders) : continuesWord d = false := by
  have hall : (enders.all fun d => !continuesWord d) = true := by decide +kernel
  simpa using List.all_eq_true.1 hall d hd

end Lexeme

namespace Operator

variable {op : Operator} {name : List Char} {d : Char}

theorem delimiter_not_mem_name (hop : op ∈ table) (hd : d ∈ Lexeme.delimiters) :
    d ∉ op.name.toList := by
  have hall : (table.all fun op => Lexeme.delimiters.all fun d => !op.name.toList.contains d) =
      true := by decide +kernel
  simpa using List.all_eq_true.1 (List.all_eq_true.1 hall op hop) d hd

theorem prefix_append_cons_iff (h : d ∉ name) (cs us : List Char) :
    name <+: cs ++ d :: us ↔ name <+: cs := by
  refine ⟨fun hpre => ?_, fun hpre => hpre.trans (List.prefix_append ..)⟩
  rcases List.prefix_or_prefix_of_prefix hpre (List.prefix_append cs (d :: us)) with hshort | hlong
  · exact hshort
  · obtain ⟨ds, rfl⟩ := hlong
    cases ds with
    | nil => exact (List.append_nil cs).symm ▸ List.prefix_refl cs
    | cons e es =>
      have he : e = d := (List.cons_prefix_cons.1 ((List.prefix_append_right_inj cs).1 hpre)).1
      exact absurd (by simp [he]) h

theorem ender_not_mem_tail_name (hop : op ∈ table) (hd : d ∈ Lexeme.enders) :
    d ∉ op.name.toList.tail := by
  have hall : (table.all fun op => Lexeme.enders.all fun d => !op.name.toList.tail.contains d) =
      true := by decide +kernel
  simpa using List.all_eq_true.1 (List.all_eq_true.1 hall op hop) d hd

theorem longest?_ender (hd : d ∈ Lexeme.enders) (c : Char) (cs us : List Char) :
    longest? (c :: (cs ++ d :: us)) = longest? (c :: cs) := by
  refine longest?_congr fun op hop => ?_
  obtain ⟨e, es, hname⟩ := List.exists_cons_of_ne_nil (name_ne_nil hop)
  have hes : d ∉ es := by
    have htail := ender_not_mem_tail_name hop hd
    rwa [hname] at htail
  rw [hname, List.cons_prefix_cons, List.cons_prefix_cons, prefix_append_cons_iff hes]

theorem longest?_comma (us : List Char) : longest? (',' :: us) = none := by
  refine longest?_eq_iff.2 fun op hop hpre => ?_
  obtain ⟨e, es, hname⟩ := List.exists_cons_of_ne_nil (name_ne_nil hop)
  rw [hname] at hpre
  refine delimiter_not_mem_name hop (d := ',') (by decide) ?_
  simp [hname, (List.cons_prefix_cons.1 hpre).1]

end Operator

namespace Lexeme

variable {start base : Nat} {c d : Char} {cs : List Char} {l : Lexeme}

theorem ne_ender (hd : d ∈ enders) (hc : 44 < c.toNat) : c ≠ d := by
  have hcode := ender_toNat_le hd
  rintro rfl
  omega

theorem startsNumber_ender (hd : d ∈ enders) : startsNumber d = false := by
  have hcode := ender_toNat_le hd
  have hpoint : d ≠ '.' := (ne_ender hd (by decide)).symm
  have hdigit : ¬ d.isDigit = true := by
    intro hdigit
    have hzero := (Char.isDigit_iff_toNat.1 hdigit).1
    simp only [Char.reduceToNat] at hzero
    omega
  simpa [startsNumber, hpoint] using hdigit

theorem decimalRun_ender (hd : d ∈ enders) (cs us : List Char) :
    decimalRun (cs ++ d :: us) = decimalRun cs := by
  have hexponent : 'e' ≠ d := ne_ender hd (by decide)
  have hstop : (startsNumber d || d == 'e') = false := by
    simp [startsNumber_ender hd, hexponent.symm]
  have hminus : ∀ (c : Char) (cs : List Char), (∀ rest, c = 'e' → cs = '-' :: rest → False) →
      ∀ rest, c = 'e' → cs ++ d :: us = '-' :: rest → False := by
    intro c cs hne rest hc hrest
    cases cs with
    | nil => exact ne_ender hd (by decide) (List.cons.inj hrest).1.symm
    | cons e cs => exact hne cs hc (by simpa using (List.cons.inj hrest).1)
  induction cs using decimalRun.induct with
  | case1 =>
    rw [List.nil_append, decimalRun, decimalRun, hstop]
    · rfl
    · rintro rest rfl
      exact absurd rfl hexponent
  | case2 cs ih => simp [decimalRun, ih]
  | case3 c cs hne hstarts ih =>
    rw [List.cons_append, decimalRun, decimalRun, ih]
    · exact hne
    · exact hminus c cs hne
  | case4 c cs hne hstarts =>
    rw [List.cons_append, decimalRun, decimalRun, if_neg hstarts, if_neg hstarts]
    · exact hne
    · exact hminus c cs hne

theorem appendDigits_ender (hd : d ∈ enders) (base value : Nat) (cs us : List Char) :
    appendDigits base value (cs ++ d :: us) = appendDigits base value cs := by
  induction cs generalizing value with
  | nil =>
    have hcode := ender_toNat_le hd
    have hdigit : d.isDigit = false := (Bool.or_eq_false_iff.1 (startsNumber_ender hd)).1
    have hlower : ¬ (97 ≤ d.toNat ∧ d.toNat ≤ 102) := by omega
    have hupper : ¬ (65 ≤ d.toNat ∧ d.toNat ≤ 70) := by omega
    have hnone : digitValue? base d = none := by simp [digitValue?, hdigit, hlower, hupper]
    simp [appendDigits, hnone]
  | cons c cs ih => simp [appendDigits, ih]

theorem based_ender (hd : d ∈ enders) (start base : Nat) (marker cs us : List Char) :
    based start base marker (cs ++ d :: us) = based start base marker cs := by
  simp only [based, appendDigits_ender hd]

theorem decimal_ender (hd : d ∈ enders) (start : Nat) (cs us : List Char) :
    decimal start (cs ++ d :: us) = decimal start cs := by
  simp only [decimal, decimalRun_ender hd]

theorem number_ender (hd : d ∈ enders) (start : Nat) (cs us : List Char) :
    number start (cs ++ d :: us) = number start cs := by
  have hmarker : ∀ m, 44 < m.toNat → (['0', m] <+: cs ++ d :: us ↔ ['0', m] <+: cs) := by
    intro m hm
    refine Operator.prefix_append_cons_iff (fun hmem => ?_) cs us
    rcases (by simpa using hmem : d = '0' ∨ d = m) with rfl | rfl
    · exact ne_ender hd (by decide) rfl
    · exact ne_ender hd hm rfl
  by_cases hx : ['0', 'x'] <+: cs
  · obtain ⟨rest, rfl⟩ := hx
    exact based_ender hd start 16 _ rest us
  · by_cases hb : ['0', 'b'] <+: cs
    · obtain ⟨rest, rfl⟩ := hb
      exact based_ender hd start 2 _ rest us
    · rw [number_eq_decimal (mt (hmarker 'x' (by decide)).1 hx)
        (mt (hmarker 'b' (by decide)).1 hb), number_eq_decimal hx hb, decimal_ender hd]

theorem word_ender (hd : d ∈ enders) (c : Char) (cs us : List Char) :
    word c (cs ++ d :: us) = word c cs := by
  have htake : (cs ++ d :: us).takeWhile continuesWord = cs.takeWhile continuesWord := by
    induction cs with
    | nil => simp [continuesWord_ender hd]
    | cons e cs ih => simp [List.takeWhile_cons, ih]
  simp only [word, htake]

theorem quoted_append {quote : Char} {cs : List Char} (h : quote ∈ cs) (us : List Char) :
    quoted quote (cs ++ us) = quoted quote cs := by
  obtain ⟨text, rest, rfl, hfree⟩ := List.eq_append_cons_of_mem h
  rw [List.append_assoc, List.cons_append, quoted_closed hfree, quoted_closed hfree]

theorem sign_ender (hd : d ∈ enders) (c : Char) (cs us : List Char) :
    sign c (cs ++ d :: us) = sign c cs := by
  simp only [sign, Operator.longest?_ender hd]

theorem first_ender (hd : d ∈ enders) (h : isQuote c = true → c ∈ cs) (us : List Char) :
    first start c (cs ++ d :: us) = first start c cs := by
  have hnumber := number_ender hd start (c :: cs) us
  rw [List.cons_append] at hnumber
  unfold first
  split
  · exact hnumber
  · split
    · rw [word_ender hd]
    · split
      · rename_i hquote
        rw [quoted_append (h hquote)]
      · rw [sign_ender hd]

theorem first_of_comma (start : Nat) (us : List Char) :
    first start ',' us = .ok ⟨.text, [','], 1⟩ := by
  have hword := startsWord_eq_false (continuesWord_ender (d := ',') (by decide))
  simp [first, startsNumber, hword, isQuote, sign, Operator.longest?_comma]

end Lexeme

namespace Scan

variable {c : Char} {cs : List Char} {l : Lexeme}

theorem EndsInQuote.of_drop {k : Nat} (hsub : ∀ t ∈ (chars k (cs.drop k)).tokens,
    t ∈ (chars 0 cs).tokens) (h : EndsInQuote (cs.drop k)) : EndsInQuote cs := by
  obtain ⟨t, ht, quote, rest, hdrop, hquote, hmem⟩ := h
  refine ⟨t.shift k, hsub _ ?_, quote, rest, ?_, hquote, hmem⟩
  · have hadd := chars_add 0 k (cs.drop k)
    rw [Nat.zero_add] at hadd
    rw [hadd]
    exact List.mem_map_of_mem ht
  · rw [List.drop_drop] at hdrop
    rw [← hdrop]
    congr 1
    simp only [Token.shift]
    omega

theorem EndsInQuote.of_blank (hc : Lexeme.isBlank c = true) (h : EndsInQuote cs) :
    EndsInQuote (c :: cs) := by
  refine of_drop (k := 1) ?_ h
  rw [chars_of_blank 0 hc]
  exact fun t ht => ht

theorem EndsInQuote.of_first {start : Nat} (hc : Lexeme.isBlank c = false)
    (hl : Lexeme.first start c cs = .ok l) (h : EndsInQuote (cs.drop (l.length - 1))) :
    EndsInQuote (c :: cs) := by
  refine of_drop (k := l.length - 1 + 1) ?_ h
  intro t ht
  have hk : 0 + 1 + (l.length - 1) = l.length - 1 + 1 := by omega
  rw [chars_of_first hc (Lexeme.first_moved hl 0), hk]
  exact List.mem_cons_of_mem _ ht

theorem EndsInQuote.of_not_mem {start : Nat} (hc : Lexeme.isBlank c = false)
    (hl : Lexeme.first start c cs = .ok l) (hquote : Lexeme.isQuote c = true) (hmem : c ∉ cs) :
    EndsInQuote (c :: cs) := by
  refine ⟨l.toToken 0, ?_, c, cs, rfl, hquote, hmem⟩
  rw [chars_of_first hc (Lexeme.first_moved hl 0)]
  exact List.mem_cons_self ..

/-- The tokens of a text, and those from an ender on. -/
theorem chars_ender {start : Nat} {d : Char} (hd : d ∈ Lexeme.enders)
    (hfailure : (chars start cs).failure = none) (hquote : ¬ EndsInQuote cs) (us : List Char) :
    chars start (cs ++ d :: us) =
      ⟨(chars start cs).tokens ++ (chars (start + cs.length) (d :: us)).tokens,
        (chars (start + cs.length) (d :: us)).failure⟩ := by
  -- The lexeme at the first character is the same in front of the ender, and stops before it.
  induction start, cs using chars_induction with
  | nil start => rfl
  | blank start c cs hc ih =>
    rw [chars_of_blank start hc] at hfailure
    have hrest := ih hfailure fun h => hquote (h.of_blank hc)
    have hstart : start + 1 + cs.length = start + (c :: cs).length := by
      rw [List.length_cons]
      omega
    rw [hstart] at hrest
    rw [List.cons_append, chars_of_blank start hc, chars_of_blank start hc, hrest]
  | token start c cs l hc hl ih =>
    have hmem : Lexeme.isQuote c = true → c ∈ cs := fun hmark =>
      Classical.byContradiction fun hmem => hquote (.of_not_mem hc hl hmark hmem)
    have hfirst : Lexeme.first start c (cs ++ d :: us) = .ok l :=
      (Lexeme.first_ender hd hmem us).trans hl
    have hlength := (Lexeme.first_cut hc hl).length_le
    rw [List.length_cons] at hlength
    have hdrop : (cs ++ d :: us).drop (l.length - 1) = cs.drop (l.length - 1) ++ d :: us :=
      List.drop_append_of_le_length (by omega)
    rw [chars_of_first hc hl] at hfailure
    have hrest := ih hfailure fun h => hquote (h.of_first hc hl)
    have hstart : start + 1 + (l.length - 1) + (cs.drop (l.length - 1)).length =
        start + (c :: cs).length := by
      rw [List.length_drop, List.length_cons]
      omega
    rw [hstart] at hrest
    rw [List.cons_append, chars_of_first hc hfirst, chars_of_first hc hl, hdrop, hrest]
    rfl
  | fault start c cs e hc he =>
    rw [chars_of_fault hc he] at hfailure
    cases hfailure

theorem chars_comma {start : Nat} (hfailure : (chars start cs).failure = none)
    (hquote : ¬ EndsInQuote cs) (us : List Char) :
    chars start (cs ++ ',' :: us) =
      ⟨(chars start cs).tokens ++
          Token.comma (start + cs.length) :: (chars (start + cs.length + 1) us).tokens,
        (chars (start + cs.length + 1) us).failure⟩ := by
  have hblank : Lexeme.isBlank ',' = false := by decide
  rw [chars_ender (by decide) hfailure hquote, chars_of_first hblank (Lexeme.first_of_comma _ us)]
  rfl

end Scan

end Reckon
