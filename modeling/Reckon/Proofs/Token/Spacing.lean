import Reckon.Proofs.Token.Tiling
/-!
Tokens can be written anew with other blanks between them. A lexeme is scanned as the same when it
stands alone (`Lexeme.first_take`) and when a blank follows, so the pieces of a line that its
tokens take, with blanks between them, are scanned as the same tokens (`Scan.chars_written`).
-/
set_option autoImplicit false

namespace Reckon

namespace Operator

variable {op : Operator} {text rest : List Char}

theorem IsLongest.of_prefix (h : IsLongest (some op) text) (hrest : rest <+: text)
    (hop : op.name.toList <+: rest) : IsLongest (some op) rest :=
  ⟨h.1, hop, fun other hother hpre => h.2.2 other hother (hpre.trans hrest)⟩

theorem IsLongest.none_of_prefix (h : IsLongest none text) (hrest : rest <+: text) :
    IsLongest none rest :=
  fun other hother hpre => h other hother (hpre.trans hrest)

end Operator

namespace Lexeme

variable {start base value result : Nat} {c marker : Char} {cs digits : List Char} {l : Lexeme}

theorem decimalRun_decimalRun (cs : List Char) : decimalRun (decimalRun cs) = decimalRun cs := by
  induction cs using decimalRun.induct with
  | case1 => rfl
  | case2 cs ih => simp only [decimalRun, ih]
  | case3 c cs hne hstarts ih =>
    have hrun : decimalRun (c :: cs) = c :: decimalRun cs := by
      rw [decimalRun, if_pos hstarts]
      exact hne
    -- The rest of the run starts with a minus sign only if the rest of the text does.
    have hne' : ∀ us, c = 'e' → decimalRun cs = '-' :: us → False := by
      intro us hc hus
      obtain ⟨rest, hcs, -⟩ := decimalRun_append_rest cs
      rw [hus] at hcs
      exact hne _ hc hcs
    rw [hrun, decimalRun, if_pos hstarts, ih]
    exact hne'
  | case4 c cs hne hstarts =>
    rw [decimalRun, if_neg hstarts]
    · rfl
    · exact hne

theorem appendDigits_digits (h : appendDigits base value cs = .ok (result, digits)) :
    appendDigits base value digits = .ok (result, digits) := by
  induction cs generalizing value digits with
  | nil =>
    cases h
    rfl
  | cons c cs ih =>
    simp only [appendDigits] at h
    split at h
    · cases h
      rfl
    · rename_i digit hdigit
      split at h
      · cases h
      · rename_i hlimit
        split at h
        · rename_i hrest
          cases h
          simp only [appendDigits, hdigit, if_neg hlimit, ih hrest]
        · cases h

theorem decimal_take (hc : startsNumber c = true) (h : decimal start (c :: cs) = .ok l) :
    decimal start (c :: cs.take (l.length - 1)) = .ok l := by
  obtain ⟨rest, hrest, -⟩ := decimalRun_append_rest cs
  have htake : cs.take (decimalRun cs).length = decimalRun cs :=
    (List.prefix_iff_eq_take.1 ⟨rest, hrest.symm⟩).symm
  simp only [decimal, decimalRun_cons hc] at h ⊢
  split at h
  · rename_i d hd
    cases h
    simp only [List.length_cons, Nat.add_sub_cancel, htake, decimalRun_decimalRun, hd]
  · cases h

theorem based_take (h : based start base ['0', marker] cs = .ok l) :
    ∃ k, l.length - 1 = k + 1 ∧ based start base ['0', marker] (cs.take k) = .ok l := by
  simp only [based] at h
  split at h
  · rename_i digits hdigits
    cases h
    obtain ⟨rest, hcs, -⟩ := appendDigits_append_rest hdigits
    have htake : cs.take digits.length = digits :=
      (List.prefix_iff_eq_take.1 ⟨rest, hcs.symm⟩).symm
    refine ⟨digits.length, ?_, ?_⟩
    · simp only [List.length_cons, List.length_nil]
      omega
    · simp only [based, htake, appendDigits_digits hdigits]
  · cases h

theorem number_take (hc : startsNumber c = true) (h : number start (c :: cs) = .ok l) :
    number start (c :: cs.take (l.length - 1)) = .ok l := by
  have hpre : c :: cs.take (l.length - 1) <+: c :: cs :=
    List.cons_prefix_cons.2 ⟨rfl, List.take_prefix ..⟩
  by_cases hx : ['0', 'x'] <+: c :: cs
  · obtain ⟨rest, hrest⟩ := hx
    cases hrest
    obtain ⟨k, hk, hbased⟩ := based_take h
    rw [hk]
    exact hbased
  · by_cases hb : ['0', 'b'] <+: c :: cs
    · obtain ⟨rest, hrest⟩ := hb
      cases hrest
      obtain ⟨k, hk, hbased⟩ := based_take h
      rw [hk]
      exact hbased
    · rw [number_eq_decimal hx hb] at h
      rw [number_eq_decimal (fun h => hx (h.trans hpre)) (fun h => hb (h.trans hpre))]
      exact decimal_take hc h

theorem word_take (c : Char) (cs : List Char) :
    word c (cs.take ((word c cs).length - 1)) = word c cs := by
  have htake : cs.take (cs.takeWhile continuesWord).length = cs.takeWhile continuesWord :=
    (List.prefix_iff_eq_take.1 (List.takeWhile_prefix continuesWord)).symm
  simp only [word, List.length_cons, Nat.add_sub_cancel, htake, List.takeWhile_idem]

theorem quoted_take (quote : Char) (cs : List Char) :
    quoted quote (cs.take ((quoted quote cs).length - 1)) = quoted quote cs := by
  by_cases hmem : quote ∈ cs
  · obtain ⟨text, rest, rfl, hfree⟩ := List.eq_append_cons_of_mem hmem
    have htake : (text ++ quote :: rest).take (text.length + 1) = text ++ quote :: [] := by
      rw [List.take_length_add_append, List.take_succ_cons, List.take_zero]
    simp only [quoted_closed hfree, Nat.add_succ_sub_one, htake]
  · simp only [quoted_unended hmem, Nat.add_sub_cancel, List.take_length]

theorem sign_take (c : Char) (cs : List Char) :
    sign c (cs.take ((sign c cs).length - 1)) = sign c cs := by
  cases hlongest : Operator.longest? (c :: cs) with
  | none =>
    have hnone := Operator.longest?_eq_iff.1 hlongest
    have halone := Operator.longest?_eq_iff.2
      (hnone.none_of_prefix (List.cons_prefix_cons.2 ⟨rfl, List.nil_prefix⟩))
    simp only [sign, hlongest, Nat.sub_self, List.take_zero, halone]
  | some op =>
    have hsome := Operator.longest?_eq_iff.1 hlongest
    obtain ⟨d, ds, hname⟩ := List.exists_cons_of_ne_nil (Operator.name_ne_nil hsome.1)
    have hlength : op.name.length - 1 = ds.length := by simp [← String.length_toList, hname]
    have hpre : d :: ds <+: c :: cs := hname ▸ hsome.2.1
    obtain ⟨rfl, hds⟩ := List.cons_prefix_cons.1 hpre
    have halone : Operator.longest? (d :: ds) = some op :=
      Operator.longest?_eq_iff.2 (hsome.of_prefix hpre (hname ▸ List.prefix_refl _))
    simp only [sign, hlongest, hlength, ← List.prefix_iff_eq_take.1 hds, halone]

theorem first_take (h : first start c cs = .ok l) :
    first start c (cs.take (l.length - 1)) = .ok l := by
  unfold first at h ⊢
  split at h
  · rename_i hnumber
    rw [if_pos hnumber]
    exact number_take hnumber h
  · rename_i hnumber
    rw [if_neg hnumber]
    split at h
    · rename_i hword
      cases h
      rw [if_pos hword, word_take]
    · rename_i hword
      rw [if_neg hword]
      split at h
      · rename_i hquote
        cases h
        rw [if_pos hquote, quoted_take]
      · rename_i hquote
        cases h
        rw [if_neg hquote, sign_take]

/-- Before a delimiter too, unless the lexeme is a quoted text that nothing ends. -/
theorem first_before_delimiter {d : Char} (h : first start c cs = .ok l) (hd : d ∈ delimiters)
    (hrest : cs.drop (l.length - 1) ≠ []) (us : List Char) :
    first start c (cs.take (l.length - 1) ++ d :: us) = .ok l := by
  refine (first_ender (List.mem_cons_of_mem _ hd) (fun hquote => ?_) us).trans (first_take h)
  rw [first_quote hquote] at h
  cases h
  by_cases hmem : c ∈ cs
  · obtain ⟨text, rest, rfl, hfree⟩ := List.eq_append_cons_of_mem hmem
    rw [quoted_closed hfree, Nat.add_succ_sub_one, List.take_length_add_append]
    exact List.mem_append_right _ (List.mem_cons_self ..)
  · refine absurd ?_ hrest
    rw [quoted_unended hmem, Nat.add_sub_cancel, List.drop_length]

end Lexeme

/-- The pieces that tokens take of a line, each written after a gap. -/
def Token.written (line : List Char) (parts : List (List Char × Token)) : List Char :=
  parts.flatMap fun p => p.1 ++ p.2.slice line

/-- The tokens where they are written, the first gap starting at a position. -/
def Token.placed (line : List Char) : Nat → List (List Char × Token) → List Token
  | _, [] => []
  | start, (gap, t) :: parts =>
    let stop := start + gap.length + (t.slice line).length
    { t with start := start + gap.length, stop } :: placed line stop parts

/-- The gaps are blank, and only the first one may be empty. -/
structure Token.Apart (parts : List (List Char × Token)) : Prop where
  blank : ∀ p ∈ parts, ∀ c ∈ p.1, c ∈ Lexeme.blanks
  gap : ∀ p ∈ parts.tail, p.1 ≠ []

namespace Token.Apart

variable {p : List Char × Token} {parts : List (List Char × Token)}

theorem of_zip {gaps : List (List Char)} {ts : List Token}
    (hblank : ∀ gap ∈ gaps, ∀ c ∈ gap, c ∈ Lexeme.blanks) (hbetween : ∀ gap ∈ gaps.tail, gap ≠ []) :
    Token.Apart (gaps.zip ts) := by
  refine ⟨fun p hp => hblank p.1 (List.of_mem_zip hp).1, fun p hp => ?_⟩
  rw [List.zip, List.tail_zipWith] at hp
  exact hbetween p.1 (List.of_mem_zip hp).1

theorem tail (h : Token.Apart (p :: parts)) : Token.Apart parts :=
  ⟨fun q hq => h.blank q (List.mem_cons_of_mem _ hq),
    fun q hq => h.gap q (List.mem_of_mem_tail hq)⟩

theorem written_eq_cons (h : Token.Apart (p :: parts)) (line : List Char) :
    parts = [] ∨ ∃ d ∈ Lexeme.delimiters, ∃ us, Token.written line parts = d :: us := by
  cases parts with
  | nil => exact .inl rfl
  | cons q parts =>
    obtain ⟨d, ds, hgap⟩ := List.exists_cons_of_ne_nil (h.gap q (List.mem_cons_self ..))
    have hd : d ∈ Lexeme.blanks := h.blank q (by simp) d (by simp [hgap])
    refine .inr ⟨d, List.mem_cons_of_mem _ hd, ds ++ q.2.slice line ++ Token.written line parts, ?_⟩
    simp [Token.written, hgap]

end Token.Apart

namespace Scan

variable {line gap : List Char} {parts : List (List Char × Token)}

theorem chars_of_blanks (hgap : ∀ c ∈ gap, c ∈ Lexeme.blanks) (start : Nat) (cs : List Char) :
    chars start (gap ++ cs) = chars (start + gap.length) cs := by
  induction gap generalizing start with
  | nil => rfl
  | cons c gap ih =>
    obtain ⟨hc, hgap⟩ := List.forall_mem_cons.1 hgap
    rw [List.cons_append, chars_of_blank start (Lexeme.isBlank_iff.2 hc), ih hgap, List.length_cons]
    congr 1
    omega

theorem chars_written (start : Nat) (cs : List Char) (hline : line.drop start = cs)
    (hfailure : (chars start cs).failure = none)
    (htokens : parts.map Prod.snd = (chars start cs).tokens) (hapart : Token.Apart parts)
    (place : Nat) :
    chars place (Token.written line parts) = ⟨Token.placed line place parts, none⟩ := by
  induction start, cs using chars_induction generalizing parts place with
  | nil start =>
    rw [List.map_eq_nil_iff.1 htokens]
    rfl
  | blank start c cs hc ih =>
    rw [chars_of_blank start hc] at hfailure htokens
    exact ih (drop_eq_cons hline).2.1 hfailure htokens hapart place
  | token start c cs l hc hl ih =>
    rw [chars_of_first hc hl] at hfailure htokens
    obtain ⟨⟨gap, t⟩, parts, rfl, rfl, hrest⟩ := List.map_eq_cons_iff.1 htokens
    generalize hk : l.length - 1 = k at hfailure hrest ih
    have hlength : (cs.take k).length = k ∧ l.length = k + 1 := by
      have hpos := (Lexeme.first_cut hc hl).length_pos
      have hle := (Lexeme.first_cut hc hl).length_le
      rw [List.length_cons] at hle
      rw [List.length_take]
      omega
    have hpieces : line.drop start = (c :: cs.take k) ++ cs.drop k := by simp [hline]
    obtain ⟨hslice, -⟩ := Lexeme.slice_toToken hpieces (l := l) (by simp [hlength])
    have hwritten : Token.written line ((gap, l.toToken start) :: parts) =
        gap ++ c :: (cs.take k ++ Token.written line parts) := by
      simp [Token.written, hslice]
    have hfirst : Lexeme.first (place + gap.length) c (cs.take k ++ Token.written line parts) =
        .ok l := by
      have hl := Lexeme.first_moved hl (place + gap.length)
      subst k
      rcases hapart.written_eq_cons line with rfl | ⟨d, hd, us, hus⟩
      · simpa [Token.written] using Lexeme.first_take hl
      · rw [hus]
        refine Lexeme.first_before_delimiter hl hd (fun hnil => ?_) us
        rw [hnil] at hrest
        rw [List.map_eq_nil_iff.1 hrest] at hus
        cases hus
    have hdrop : (cs.take k ++ Token.written line parts).drop k = Token.written line parts :=
      List.drop_left' hlength.1
    have hfurther := ih (by rw [← (drop_eq_cons hline).2.1, List.drop_drop]) hfailure hrest
      hapart.tail (place + gap.length + 1 + k)
    have hstop : place + gap.length + 1 + k = place + gap.length + (c :: cs.take k).length := by
      rw [List.length_cons, hlength.1]
      omega
    rw [hwritten, chars_of_blanks (hapart.blank _ (List.mem_cons_self ..)),
      chars_of_first hc hfirst, hk, hdrop, hfurther, Token.placed, hslice, ← hstop]
    simp only [Lexeme.toToken, hlength.2, Nat.add_assoc, Nat.add_comm 1 k]
  | fault start c cs e hc he =>
    rw [chars_of_fault hc he] at hfailure
    cases hfailure

end Scan

namespace Token

variable {line text : List Char} {parts : List (List Char × Token)}

theorem relocate_placed (start : Nat) :
    (placed line start parts).map (relocate fun _ => 0) =
      (parts.map Prod.snd).map (relocate fun _ => 0) := by
  induction parts generalizing start with
  | nil => rfl
  | cons p parts ih => simp only [placed, List.map_cons, ih]; rfl

def inLine (line : List Char) (t : Token) : TokenKind × String × List Char :=
  (t.kind, t.text, t.slice line)

theorem inLine_placed (start : Nat) (htext : text.drop start = written line parts) :
    (placed line start parts).map (inLine text) = (parts.map Prod.snd).map (inLine line) := by
  induction parts generalizing start with
  | nil => rfl
  | cons p parts ih =>
    obtain ⟨gap, t⟩ := p
    have hpiece : text.drop (start + gap.length) = t.slice line ++ written line parts := by
      rw [← List.drop_drop, htext]
      simp [written]
    have hrest : text.drop (start + gap.length + (t.slice line).length) = written line parts := by
      rw [← List.drop_drop, hpiece, List.drop_left]
    have hfirst : (text.drop (start + gap.length)).take
        (start + gap.length + (t.slice line).length - (start + gap.length)) = t.slice line := by
      rw [Nat.add_sub_cancel_left, hpiece, List.take_left]
    simp only [placed, List.map_cons, ih _ hrest]
    exact congrArg (fun piece => (t.kind, t.text, piece) :: _) hfirst

end Token

end Reckon
