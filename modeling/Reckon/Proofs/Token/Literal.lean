import Reckon.Proofs.Decimal.Value
import Reckon.Proofs.Token.Spelling
set_option autoImplicit false

namespace Reckon

namespace Lexeme

/-- Digits and points in any order, and letters `e`, each with a minus sign directly behind it or
without one. -/
inductive IsRun : List Char → Prop where
  | nil : IsRun []
  | plain {c : Char} {cs : List Char} :
      c.isDigit = true ∨ c = '.' → IsRun cs → IsRun (c :: cs)
  | exponent {cs : List Char} : IsRun cs → IsRun ('e' :: cs)
  | signed {cs : List Char} : IsRun cs → IsRun ('e' :: '-' :: cs)

/-- A text starts with this run and with no longer one. -/
structure IsLongestRun (text run : List Char) : Prop where
  isRun : IsRun run
  isPrefix : run <+: text
  longest : ∀ other, IsRun other → other <+: text → other.length ≤ run.length

variable {cs run : List Char} {c : Char}

theorem IsLongestRun.unique {other : List Char} (h : IsLongestRun cs run)
    (h' : IsLongestRun cs other) : run = other := by
  have hle := h'.longest run h.isRun h.isPrefix
  have hge := h.longest other h'.isRun h'.isPrefix
  exact (List.prefix_of_prefix_length_le h.isPrefix h'.isPrefix hle).eq_of_length (by omega)

theorem IsRun.mem (h : IsRun run) (hc : c ∈ run) : c.isDigit = true ∨ c ∈ ['.', 'e', '-'] := by
  induction h with
  | nil => cases hc
  | plain hd _ ih =>
    rcases List.mem_cons.1 hc with rfl | hc
    · exact hd.imp_right fun h => by simp [h]
    · exact ih hc
  | exponent _ ih =>
    rcases List.mem_cons.1 hc with rfl | hc
    · exact .inr (by simp)
    · exact ih hc
  | signed _ ih =>
    rcases List.mem_cons.1 hc with rfl | hc
    · exact .inr (by simp)
    · rcases List.mem_cons.1 hc with rfl | hc
      · exact .inr (by simp)
      · exact ih hc

theorem startsNumber_iff : startsNumber c = true ↔ c.isDigit = true ∨ c = '.' := by
  simp [startsNumber]

theorem isRun_decimalRun (cs : List Char) : IsRun (decimalRun cs) := by
  induction cs using decimalRun.induct with
  | case1 => exact .nil
  | case2 cs ih =>
    rw [decimalRun]
    exact .signed ih
  | case3 c cs hne hstarts ih =>
    rw [decimalRun, if_pos hstarts]
    · rcases Bool.or_eq_true_iff.1 hstarts with hplain | hexponent
      · exact .plain (startsNumber_iff.1 hplain) ih
      · exact beq_iff_eq.1 hexponent ▸ .exponent ih
    · exact hne
  | case4 c cs hne hstarts =>
    rw [decimalRun, if_neg hstarts]
    · exact .nil
    · exact hne

theorem IsRun.head_ne_minus (h : IsRun run) : run.head? ≠ some '-' := by
  cases h with
  | nil => simp
  | plain hd =>
    rintro heq
    obtain rfl := Option.some.inj heq
    exact absurd hd (by decide)
  | exponent => simp
  | signed => simp

theorem decimalRun_exponent (h : cs.head? ≠ some '-') :
    decimalRun ('e' :: cs) = 'e' :: decimalRun cs := by
  rw [decimalRun, if_pos (by simp)]
  rintro us - rfl
  exact h rfl

theorem IsRun.isPrefix_decimalRun (h : IsRun run) (hpre : run <+: cs) : run <+: decimalRun cs := by
  induction h generalizing cs with
  | nil => exact List.nil_prefix
  | plain hd _ ih =>
    obtain ⟨us, rfl, hrest⟩ := List.cons_prefix_iff.1 hpre
    rw [decimalRun_cons (startsNumber_iff.2 hd)]
    exact List.cons_prefix_cons.2 ⟨rfl, ih hrest⟩
  | @exponent run hrun ih =>
    obtain ⟨us, rfl, hrest⟩ := List.cons_prefix_iff.1 hpre
    by_cases hminus : us.head? = some '-'
    · -- The sign belongs to the letter before it, so no other run goes on there.
      obtain ⟨vs, rfl⟩ := List.head?_eq_some_iff.1 hminus
      cases run with
      | nil => exact ⟨'-' :: decimalRun vs, by rw [decimalRun]; rfl⟩
      | cons d ds =>
        obtain rfl := (List.cons_prefix_cons.1 hrest).1
        exact absurd rfl hrun.head_ne_minus
    · rw [decimalRun_exponent hminus]
      exact List.cons_prefix_cons.2 ⟨rfl, ih hrest⟩
  | signed _ ih =>
    obtain ⟨us, rfl, hsigned⟩ := List.cons_prefix_iff.1 hpre
    obtain ⟨vs, rfl, hrest⟩ := List.cons_prefix_iff.1 hsigned
    rw [decimalRun]
    exact List.cons_prefix_cons.2 ⟨rfl, List.cons_prefix_cons.2 ⟨rfl, ih hrest⟩⟩

theorem isLongestRun_decimalRun (cs : List Char) : IsLongestRun cs (decimalRun cs) where
  isRun := isRun_decimalRun cs
  isPrefix := by
    obtain ⟨rest, hrest, -⟩ := decimalRun_append_rest cs
    exact ⟨rest, hrest.symm⟩
  longest := fun _ hrun hpre => (hrun.isPrefix_decimalRun hpre).length_le

end Lexeme

namespace Scan

/-- The places a scan comes to: behind blanks and behind lexemes. -/
inductive Reaches : Nat → List Char → Nat → List Char → Prop where
  | here (start : Nat) (cs : List Char) : Reaches start cs start cs
  | blank {start place : Nat} {c : Char} {cs rest : List Char} :
      Lexeme.isBlank c = true → Reaches (start + 1) cs place rest →
      Reaches start (c :: cs) place rest
  | lexeme {start place : Nat} {c : Char} {cs rest : List Char} {l : Lexeme} :
      Lexeme.isBlank c = false → Lexeme.first start c cs = .ok l →
      Reaches (start + l.length) ((c :: cs).drop l.length) place rest →
      Reaches start (c :: cs) place rest

theorem Reaches.exists_tokens {start place : Nat} {cs rest : List Char}
    (h : Reaches start cs place rest) :
    start ≤ place ∧ cs.drop (place - start) = rest ∧ ∃ found,
      chars start cs = ⟨found ++ (chars place rest).tokens, (chars place rest).failure⟩ ∧
      ∀ t ∈ found, t.stop ≤ place := by
  induction h with
  | here start cs => exact ⟨Nat.le_refl _, by simp, [], rfl, by simp⟩
  | @blank start place c cs rest hc _ ih =>
    obtain ⟨hle, hdrop, found, hscan, hfound⟩ := ih
    have hplace : place - start = place - (start + 1) + 1 := by omega
    refine ⟨by omega, by rw [hplace, List.drop_succ_cons, hdrop], found, ?_, hfound⟩
    rw [chars_of_blank start hc, hscan]
  | @lexeme start place c cs rest l hc hl _ ih =>
    obtain ⟨hle, hdrop, found, hscan, hfound⟩ := ih
    have hplace : place - start = l.length + (place - (start + l.length)) := by omega
    refine ⟨by omega, by rw [hplace, ← List.drop_drop, hdrop], l.toToken start :: found, ?_, ?_⟩
    · rw [chars_of_lexeme hc hl, hscan]
      rfl
    · exact List.forall_mem_cons.2 ⟨hle, hfound⟩

theorem Reaches.trans {start place next : Nat} {cs rest behind : List Char}
    (h : Reaches start cs place rest) (hnext : Reaches place rest next behind) :
    Reaches start cs next behind := by
  induction h with
  | here => exact hnext
  | blank hc _ ih => exact .blank hc (ih hnext)
  | lexeme hc hl _ ih => exact .lexeme hc hl (ih hnext)

theorem Reaches.exists_start {start place : Nat} {c : Char} {cs rest : List Char}
    (h : Reaches start cs place (c :: rest)) (hc : Lexeme.isBlank c = false) :
    (∃ t ∈ (chars start cs).tokens, t.start = place) ∨
      ∃ e, (chars start cs).failure = some e ∧ e.start = place := by
  obtain ⟨-, -, found, hscan, -⟩ := h.exists_tokens
  rw [hscan]
  cases hl : Lexeme.first place c rest with
  | ok l =>
    rw [chars_of_lexeme hc hl]
    exact .inl ⟨l.toToken place, by simp, rfl⟩
  | error e =>
    rw [chars_of_fault hc hl]
    exact .inr ⟨e, rfl, (Lexeme.first_fault hl).1⟩

end Scan

/-- A decimal literal is cut off as the longest run of characters that may belong to one. If the run
is a numeral, the token spans just the run, and its value is the one nearest to the number that the
numeral denotes; otherwise the run is the fault of the line, and no token reaches into it. -/
theorem decimal_literal (source : String) {place : Nat} {c : Char} {cs : List Char}
    (hplace : Scan.Reaches 0 source.toList place (c :: cs))
    (hc : Lexeme.startsNumber c = true) (hx : ¬ ['0', 'x'] <+: c :: cs)
    (hb : ¬ ['0', 'b'] <+: c :: cs) :
    source.toList.drop place = c :: cs ∧ ∃ run, Lexeme.IsLongestRun (c :: cs) run ∧
      (∀ n : Numeral, n.chars = run → ∃ x : Number, x.IsNearest n.value ∧
        (⟨.number x, String.ofList run, place, place + run.length⟩ : Token) ∈
          (Scan.line source).tokens) ∧
      ((∀ n : Numeral, n.chars ≠ run) →
        (Scan.line source).failure = some (.invalidConstant (String.ofList run) place) ∧
        ∀ t ∈ (Scan.line source).tokens, t.stop ≤ place) := by
  obtain ⟨-, hdrop, found, hscan, hfound⟩ := hplace.exists_tokens
  refine ⟨hdrop, Lexeme.decimalRun (c :: cs), Lexeme.isLongestRun_decimalRun _, ?_⟩
  have hblank := Lexeme.isBlank_of_startsNumber hc
  have hrun := Lexeme.isRun_decimalRun (c :: cs)
  have hfirst : Lexeme.first place c cs = Lexeme.decimal place (c :: cs) := by
    rw [Lexeme.first, if_pos hc, Lexeme.number_eq_decimal hx hb]
  simp only [Lexeme.decimal] at hfirst
  generalize Lexeme.decimalRun (c :: cs) = run at hrun hfirst ⊢
  have hplus : '+' ∉ run := fun hmem => absurd (hrun.mem hmem) (by decide)
  cases hread : Decimal.read? run with
  | some d =>
    rw [hread] at hfirst
    constructor
    · rintro n rfl
      obtain rfl : n.decimal = d := Option.some.inj (n.read?_chars.symm.trans hread)
      refine ⟨n.decimal.nearest, n.isNearest_decimal, ?_⟩
      rw [Scan.line, hscan, Scan.chars_of_lexeme hblank hfirst]
      exact List.mem_append_right _ List.mem_cons_self
    · intro hno
      obtain ⟨n, hn⟩ := Numeral.exists_of_read? hread hplus
      exact absurd hn (hno n)
  | none =>
    rw [hread] at hfirst
    rw [Scan.line, hscan, Scan.chars_of_fault hblank hfirst]
    constructor
    · rintro n rfl
      rw [n.read?_chars] at hread
      cases hread
    · exact fun _ => ⟨rfl, by simpa using hfound⟩

theorem decimal_literal_tenth :
    (Scan.Reaches 0 "a+0.1".toList 2 ['0', '.', '1'] ∧ ∃ x : Number, x.IsNearest (1 / 10) ∧
      (⟨.number x, "0.1", 2, 5⟩ : Token) ∈ (Scan.line "a+0.1").tokens) ∧
    (Scan.Reaches 0 "2e-)".toList 0 ['2', 'e', '-', ')'] ∧
      (Scan.line "2e-)").failure = some (.invalidConstant "2e-" 0)) := by
  have hplace : Scan.Reaches 0 "a+0.1".toList 2 ['0', '.', '1'] :=
    .lexeme rfl rfl (.lexeme rfl rfl (.here 2 ['0', '.', '1']))
  refine ⟨⟨hplace, ?_⟩, .here 0 _, ?_⟩
  · obtain ⟨-, run, hrun, hvalue, -⟩ :=
      decimal_literal "a+0.1" hplace rfl (by decide) (by decide)
    have hself : Lexeme.decimalRun ['0', '.', '1'] = ['0', '.', '1'] := by decide
    obtain rfl := (hrun.unique (Lexeme.isLongestRun_decimalRun _)).trans hself
    let tenth : Numeral := ⟨['0'], some ['1'], none, by simp, by simp⟩
    have hwhole : Nat.ofDigitChars 10 ['0'] 0 = 0 := rfl
    have hfraction : Nat.ofDigitChars 10 ['1'] 0 = 1 := rfl
    have htenth : tenth.value = 1 / 10 := by
      simp [tenth, Numeral.value, Numeral.fraction, hwhole, hfraction]
    obtain ⟨x, hx, htoken⟩ := hvalue tenth rfl
    exact ⟨x, htenth ▸ hx, htoken⟩
  · obtain ⟨-, run, hrun, -, hfault⟩ :=
      decimal_literal "2e-)" (.here 0 _) rfl (by decide) (by decide)
    have hself : Lexeme.decimalRun ['2', 'e', '-', ')'] = ['2', 'e', '-'] := by decide
    obtain rfl := (hrun.unique (Lexeme.isLongestRun_decimalRun _)).trans hself
    refine (hfault fun n hn => ?_).1
    have hnone : Decimal.read? ['2', 'e', '-'] = none := by decide
    have hread := n.read?_chars
    rw [hn, hnone] at hread
    cases hread

end Reckon
