import Reckon.Proofs.Token.Joining
set_option autoImplicit false

namespace Reckon

def Token.slice (text : List Char) (t : Token) : List Char :=
  (text.drop t.start).take (t.stop - t.start)

theorem Lexeme.slice_toToken {l : Lexeme} {text piece rest : List Char} {start : Nat}
    (hline : text.drop start = piece ++ rest) (hlength : l.length = piece.length) :
    (l.toToken start).slice text = piece ∧ text.drop (start + l.length) = rest := by
  constructor
  · have hwidth : start + l.length - start = piece.length := by omega
    simp only [Token.slice, toToken, hline, hwidth, List.take_left]
  · rw [← List.drop_drop, hline, hlength, List.drop_left]

def Token.Covers (t : Token) (i : Nat) : Prop := t.start ≤ i ∧ i < t.stop

namespace Scan

/-- The end of the line, or the place of the numeral that is at fault. -/
def stop (s : Scan) (text : List Char) : Nat :=
  match s.failure with
  | some e => e.start
  | none => text.length

/-- From one position of the line to another there are only blanks and the tokens. -/
inductive Tiles (text : List Char) : Nat → Nat → List Token → Prop where
  | done (stop : Nat) : Tiles text stop stop []
  | blank {start stop : Nat} {c : Char} {ts : List Token} :
      text[start]? = some c → Lexeme.isBlank c = true → Tiles text (start + 1) stop ts →
      Tiles text start stop ts
  | token {stop : Nat} {t : Token} {ts : List Token} :
      Lexeme.Cut t.kind t.text.toList (t.slice text) (text.drop t.stop) →
      t.start < t.stop → Tiles text t.stop stop ts → Tiles text t.start stop (t :: ts)

namespace Tiles

variable {text : List Char} {start stop : Nat} {ts : List Token}

theorem start_le_stop (h : Tiles text start stop ts) : start ≤ stop := by
  induction h with
  | done stop => exact Nat.le_refl stop
  | blank _ _ _ ih => omega
  | token _ hlt _ ih => omega

theorem bounds (h : Tiles text start stop ts) :
    ∀ t ∈ ts, start ≤ t.start ∧ t.start < t.stop ∧ t.stop ≤ stop := by
  induction h with
  | done => simp
  | blank _ _ _ ih =>
    intro t ht
    obtain ⟨hstart, hbounds⟩ := ih t ht
    exact ⟨by omega, hbounds⟩
  | token _ hlt hrest ih =>
    refine List.forall_mem_cons.2 ⟨⟨Nat.le_refl _, hlt, hrest.start_le_stop⟩, fun u hu => ?_⟩
    obtain ⟨hstart, hbounds⟩ := ih u hu
    exact ⟨by omega, hbounds⟩

theorem ordered (h : Tiles text start stop ts) : ts.Pairwise fun t u => t.stop ≤ u.start := by
  induction h with
  | done => exact .nil
  | blank _ _ _ ih => exact ih
  | token _ _ hrest ih => exact List.pairwise_cons.2 ⟨fun u hu => (hrest.bounds u hu).1, ih⟩

theorem isBlank_of_not_covers (h : Tiles text start stop ts) {i : Nat} (hstart : start ≤ i)
    (hstop : i < stop) (hfree : ∀ t ∈ ts, ¬ t.Covers i) :
    ∃ c, text[i]? = some c ∧ Lexeme.isBlank c = true := by
  induction h with
  | done => omega
  | @blank start stop c ts hget hc _ ih =>
    by_cases hi : i = start
    · exact ⟨c, hi ▸ hget, hc⟩
    · exact ih (by omega) hstop hfree
  | token _ _ _ ih =>
    obtain ⟨hfirst, hfree⟩ := List.forall_mem_cons.1 hfree
    exact ih (Nat.not_lt.1 fun hlt => hfirst ⟨hstart, hlt⟩) hstop hfree

theorem cut (h : Tiles text start stop ts) :
    ∀ t ∈ ts, Lexeme.Cut t.kind t.text.toList (t.slice text) (text.drop t.stop) := by
  induction h with
  | done => simp
  | blank _ _ _ ih => exact ih
  | token hcut _ _ ih => exact List.forall_mem_cons.2 ⟨hcut, ih⟩

end Tiles

theorem drop_eq_cons {text cs : List Char} {start : Nat} {c : Char}
    (h : text.drop start = c :: cs) :
    text[start]? = some c ∧ text.drop (start + 1) = cs ∧ start < text.length := by
  have hget : text[start]? = some c := by rw [← List.head?_drop, h, List.head?_cons]
  refine ⟨hget, ?_, (List.getElem?_eq_some_iff.1 hget).1⟩
  rw [← List.tail_drop, h, List.tail_cons]

theorem tiles_chars {text : List Char} (start : Nat) (cs : List Char)
    (hline : text.drop start = cs) (hstart : start ≤ text.length) :
    Tiles text start ((chars start cs).stop text) (chars start cs).tokens := by
  induction start, cs using chars_induction with
  | nil start =>
    have hlength : text.length ≤ start := List.drop_eq_nil_iff.1 hline
    rw [Nat.le_antisymm hstart hlength]
    exact .done text.length
  | blank start c cs hc ih =>
    obtain ⟨hget, hrest, hlt⟩ := drop_eq_cons hline
    rw [chars_of_blank start hc]
    exact .blank hget hc (ih hrest hlt)
  | token start c cs l hc hl ih =>
    have hpos := (Lexeme.first_cut hc hl).length_pos
    obtain ⟨piece, rest, hcs, hlength, hcut⟩ := Lexeme.first_cut hc hl
    obtain ⟨hslice, hrest⟩ := Lexeme.slice_toToken (hline.trans hcs) hlength
    have hnext : start + 1 + (l.length - 1) = start + l.length := by omega
    have hdrop : cs.drop (l.length - 1) = text.drop (start + l.length) := by
      rw [← (drop_eq_cons hline).2.1, List.drop_drop, hnext]
    have hbound : start + l.length ≤ text.length := by
      have := congrArg List.length (hline.trans hcs)
      simp only [List.length_drop, List.length_append] at this
      omega
    rw [hnext, hdrop] at ih
    rw [chars_of_first hc hl, hnext, hdrop]
    refine .token (t := l.toToken start) ?_ ?_ (ih rfl hbound)
    · rw [hslice]
      simpa only [Lexeme.toToken, String.toList_ofList, hrest] using hcut
    · simp only [Lexeme.toToken]
      omega
  | fault start c cs e hc he =>
    obtain ⟨hplace, -⟩ := Lexeme.first_fault he
    rw [chars_of_fault hc he]
    simp only [stop, hplace]
    exact .done start

/-- A quote that is left open makes a name of the last token. -/
theorem EndsInQuote.last {cs : List Char} (h : EndsInQuote cs)
    (hfailure : (chars 0 cs).failure = none) :
    ∃ t ∈ (chars 0 cs).tokens.getLast?, t.kind = .text := by
  obtain ⟨t, ht, quote, rest, hdrop, hquote, hmem⟩ := h
  have htiles : Tiles cs 0 cs.length (chars 0 cs).tokens := by
    have hchars := tiles_chars 0 cs rfl (Nat.zero_le _)
    rwa [stop, hfailure] at hchars
  obtain ⟨-, hlt, -⟩ := htiles.bounds t ht
  have hslice : t.slice cs = quote :: rest.take (t.stop - t.start - 1) := by
    obtain ⟨n, hn⟩ := Nat.exists_eq_succ_of_ne_zero (Nat.sub_ne_zero_of_lt hlt)
    rw [Token.slice, hdrop, hn, List.take_succ_cons]
    rfl
  obtain ⟨hkind, hclosed | hend⟩ := (htiles.cut t ht).of_quote hquote (by rw [hslice]; rfl)
  · rw [hslice] at hclosed
    exact absurd (List.mem_of_mem_take hclosed) hmem
  · obtain ⟨us, vs, htokens⟩ := List.append_of_mem ht
    cases vs with
    | nil => exact ⟨t, by simp [htokens], hkind⟩
    | cons v vs =>
      -- The next token would have to start behind the end of the line.
      have hordered := htiles.ordered
      rw [htokens, List.pairwise_append] at hordered
      have hnext := (List.pairwise_cons.1 hordered.2.1).1 v (List.mem_cons_self ..)
      obtain ⟨-, hpos, hbound⟩ := htiles.bounds v (by simp [htokens])
      have hstop := List.drop_eq_nil_iff.1 hend
      omega

theorem fault_chars {text : List Char} {e : LexicalError} (start : Nat) (cs : List Char)
    (hline : text.drop start = cs) (he : (chars start cs).failure = some e) :
    e.text ≠ "" ∧ e.text.toList = (text.drop e.start).take e.text.length := by
  induction start, cs using chars_induction with
  | nil => cases he
  | blank start c cs hc ih =>
    rw [chars_of_blank start hc] at he
    exact ih (drop_eq_cons hline).2.1 he
  | token start c cs l hc hl ih =>
    rw [chars_of_first hc hl] at he
    refine ih ?_ he
    rw [← (drop_eq_cons hline).2.1, List.drop_drop]
  | fault start c cs fault hc hfault =>
    rw [chars_of_fault hc hfault] at he
    obtain rfl : fault = e := Option.some.inj he
    obtain ⟨hplace, ds, htext, hds⟩ := Lexeme.first_fault hfault
    have hpre : fault.text.toList <+: c :: cs := htext ▸ List.cons_prefix_cons.2 ⟨rfl, hds⟩
    refine ⟨fun hempty => ?_, ?_⟩
    · rw [hempty] at htext
      cases htext
    · rw [hplace, hline, ← String.length_toList]
      exact List.prefix_iff_eq_take.1 hpre

end Scan

/-- The tokens of a line follow one another without overlapping. Outside of them, and before a
numeral that is at fault, all characters are blanks. -/
theorem tokens_tile (source : String) :
    let text := source.toList
    let scan := Scan.line source
    (∀ t ∈ scan.tokens, t.start < t.stop ∧ t.stop ≤ scan.stop text) ∧
      scan.tokens.Pairwise (fun t u => t.stop ≤ u.start) ∧
      (∀ i < scan.stop text, (∀ t ∈ scan.tokens, ¬ t.Covers i) →
        ∃ c ∈ Lexeme.blanks, text[i]? = some c) ∧
      (∀ t ∈ scan.tokens, Lexeme.Cut t.kind t.text.toList (t.slice text) (text.drop t.stop)) ∧
      ∀ e, scan.failure = some e →
        e.text ≠ "" ∧ e.text.toList = (text.drop e.start).take e.text.length := by
  intro text scan
  have htiles : Scan.Tiles text 0 (scan.stop text) scan.tokens :=
    Scan.tiles_chars 0 text rfl (Nat.zero_le _)
  refine ⟨fun t ht => (htiles.bounds t ht).2, htiles.ordered, fun i hi hfree => ?_, htiles.cut,
    fun e he => Scan.fault_chars 0 text rfl he⟩
  obtain ⟨c, hget, hc⟩ := htiles.isBlank_of_not_covers (Nat.zero_le i) hi hfree
  exact ⟨c, Lexeme.isBlank_iff.1 hc, hget⟩

end Reckon
