import Reckon.Token.Queue
import Reckon.Proofs.Operator.Longest
/-!
Which tokens a line has. The names of the registry are words or signs (`Operator.word_or_sign`),
and what is proved of the lexeme at any character holds of every token (`Scan.forall_chars`), so
all operators among the tokens are entries of the registry that stand as signs.
-/
set_option autoImplicit false

namespace Reckon

theorem Scan.forall_chars {P : Token → Prop}
    (h : ∀ start c cs l, Lexeme.isBlank c = false → Lexeme.first start c cs = .ok l →
      P (l.toToken start))
    (start : Nat) (cs : List Char) : ∀ t ∈ (Scan.chars start cs).tokens, P t := by
  induction start, cs using chars_induction with
  | nil start => simp [scan_nil]
  | blank start c cs hc ih => rwa [chars_of_blank start hc]
  | token start c cs l hc hl ih =>
    rw [chars_of_first hc hl]
    exact List.forall_mem_cons.2 ⟨h start c cs l hc hl, ih⟩
  | fault start c cs e hc he => simp [chars_of_fault hc he]

theorem Lexeme.continuesWord_of_mem {c : Char}
    (hc : c ∈ [' ', '(', ')', ',', '\x27', '\x22']) : continuesWord c = false := by
  have hall : ([' ', '(', ')', ',', '\x27', '\x22'].all fun c => !continuesWord c) = true := by
    decide +kernel
  simpa using List.all_eq_true.1 hall c hc

theorem Lexeme.continuesWord_of_isQuote {c : Char} (hc : isQuote c = true) :
    continuesWord c = false := by
  have hmem : c ∈ ['\x27', '\x22'] := by simpa [isQuote] using hc
  exact continuesWord_of_mem (List.mem_append_right [' ', '(', ')', ','] hmem)

theorem Lexeme.isBlank_of_isQuote {c : Char} (hc : isQuote c = true) : isBlank c = false := by
  rcases (by simpa [isQuote] using hc : c = '\x27' ∨ c = '\x22') with rfl | rfl <;> decide

theorem Lexeme.startsNumber_of_isQuote {c : Char} (hc : isQuote c = true) :
    startsNumber c = false := by
  rcases (by simpa [isQuote] using hc : c = '\x27' ∨ c = '\x22') with rfl | rfl <;> decide

theorem Lexeme.startsWord_eq_false {c : Char} (h : continuesWord c = false) :
    startsWord c = false := by
  simp only [continuesWord, Bool.or_eq_false_iff] at h
  simp only [startsWord, h, Bool.or_self]

namespace Operator

def isWord : List Char → Bool
  | [] => false
  | c :: cs => !Lexeme.isBlank c && !Lexeme.startsNumber c && Lexeme.startsWord c &&
      cs.all Lexeme.continuesWord

/-- The first character starts no token of another kind, a parenthesis stands alone, and neither
an open one nor a blank nor a comma comes later. -/
def isSign : List Char → Bool
  | [] => false
  | c :: cs => !Lexeme.isBlank c && !Lexeme.startsNumber c && !Lexeme.startsWord c &&
      !Lexeme.isQuote c && c != ',' && ((c != '(' && c != ')') || cs.isEmpty) &&
      cs.all fun d => d != ' ' && d != '(' && d != ','

theorem word_or_sign :
    (table.all fun op => if op.isCall then isWord op.name.toList else isSign op.name.toList) =
      true := by decide +kernel

variable {op : Operator} {name : List Char} {d : Char}

theorem isWord_name (hop : op ∈ table) (hcall : op.isCall = true) :
    isWord op.name.toList = true := by
  have hname := List.all_eq_true.1 word_or_sign op hop
  rwa [hcall] at hname

theorem isSign_name (hop : op ∈ table) (hcall : op.isCall = false) :
    isSign op.name.toList = true := by
  have hname := List.all_eq_true.1 word_or_sign op hop
  rwa [hcall] at hname

theorem not_mem_of_isWord (h : isWord name = true) (hd : Lexeme.continuesWord d = false) :
    d ∉ name := by
  cases name with
  | nil => simp
  | cons c cs =>
    simp only [isWord, Bool.and_eq_true, List.all_eq_true] at h
    obtain ⟨⟨-, hstart⟩, hall⟩ := h
    intro hmem
    rcases List.mem_cons.1 hmem with rfl | hmem
    · rw [Lexeme.startsWord_eq_false hd] at hstart
      cases hstart
    · rw [hall d hmem] at hd
      cases hd

theorem quote_not_mem_name (hop : op ∈ table) (hd : Lexeme.isQuote d = true) :
    d ∉ op.name.toList := by
  have hall : (table.all fun op => op.name.toList.all fun d => !Lexeme.isQuote d) = true := by
    decide +kernel
  intro hmem
  have hquote := List.all_eq_true.1 (List.all_eq_true.1 hall op hop) d hmem
  rw [hd] at hquote
  cases hquote

theorem startsWord_of_isCall (hop : op ∈ table) (hcall : op.isCall = true) :
    ∀ c ∈ op.name.toList.head?, Lexeme.startsWord c = true := by
  have hword := isWord_name hop hcall
  cases hname : op.name.toList with
  | nil => simp
  | cons c cs =>
    simp only [hname, isWord, Bool.and_eq_true] at hword
    simpa using hword.1.2

theorem not_mem_tail_name (hop : op ∈ table) (hd : d ∈ [' ', '(', ',']) :
    d ∉ op.name.toList.tail := by
  cases hcall : op.isCall with
  | true =>
    have hword : Lexeme.continuesWord d = false := by
      refine Lexeme.continuesWord_of_mem ?_
      rcases (by simpa using hd : d = ' ' ∨ d = '(' ∨ d = ',') with rfl | rfl | rfl <;> decide
    exact fun hmem => not_mem_of_isWord (isWord_name hop hcall) hword (List.mem_of_mem_tail hmem)
  | false =>
    have hsign := isSign_name hop hcall
    cases hname : op.name.toList with
    | nil => simp
    | cons c cs =>
      simp only [hname, isSign, Bool.and_eq_true, List.all_eq_true, bne_iff_ne] at hsign
      intro hmem
      obtain ⟨⟨hblank, hopen⟩, hcomma⟩ := hsign.2 d hmem
      rcases (by simpa using hd : d = ' ' ∨ d = '(' ∨ d = ',') with rfl | rfl | rfl
      · exact hblank rfl
      · exact hopen rfl
      · exact hcomma rfl

end Operator

/-- The operator of a token is an entry of the registry that stands as a sign. -/
def Token.HasSign (t : Token) : Prop :=
  ∀ op, t.kind = .operator op → op ∈ Operator.table ∧ op.isCall = false

namespace Lexeme

variable {start : Nat} {c : Char} {cs : List Char} {l : Lexeme} {op : Operator}

theorem number_value {text : List Char} (h : number start text = .ok l) :
    (∃ d : Decimal, l.kind = .number d.nearest) ∨ ∃ k : Nat, l.kind = .number (.ofInt k) := by
  have hdecimal : ∀ {us}, decimal start us = .ok l → ∃ d : Decimal, l.kind = .number d.nearest := by
    intro us hd
    simp only [decimal] at hd
    split at hd
    · cases hd
      exact ⟨_, rfl⟩
    · cases hd
  have hbased : ∀ {base marker us}, based start base marker us = .ok l →
      ∃ k : Nat, l.kind = .number (.ofInt k) := by
    intro base marker us hb
    simp only [based] at hb
    split at hb
    · cases hb
      exact ⟨_, rfl⟩
    · cases hb
  unfold number at h
  split at h
  · exact .inr (hbased h)
  · exact .inr (hbased h)
  · exact .inl (hdecimal h)

theorem number_kind {text : List Char} (h : number start text = .ok l) :
    ∃ value, l.kind = .number value := by
  rcases number_value h with ⟨d, hd⟩ | ⟨k, hk⟩
  · exact ⟨_, hd⟩
  · exact ⟨_, hk⟩

theorem sign_hasSign (hc : startsWord c = false) (h : (sign c cs).kind = .operator op) :
    op ∈ Operator.table ∧ op.isCall = false := by
  unfold sign at h
  split at h
  · rename_i found hfound
    cases h
    obtain ⟨hmem, hpre⟩ := Operator.longest?_mem hfound
    refine ⟨hmem, ?_⟩
    cases hcall : op.isCall with
    | false => rfl
    | true =>
      obtain ⟨d, ds, hname⟩ := List.exists_cons_of_ne_nil (Operator.name_ne_nil hmem)
      rw [hname] at hpre
      have hd : d = c := (List.cons_prefix_cons.1 hpre).1
      have hword := Operator.startsWord_of_isCall hmem hcall d (by simp [hname])
      rw [hd, hc] at hword
      cases hword
  · cases h

theorem first_hasSign (h : first start c cs = .ok l) (hop : l.kind = .operator op) :
    op ∈ Operator.table ∧ op.isCall = false := by
  unfold first at h
  split at h
  · obtain ⟨value, hvalue⟩ := number_kind h
    rw [hvalue] at hop
    cases hop
  · split at h
    · cases h
      cases hop
    · rename_i hword
      split at h
      · cases h
        cases hop
      · cases h
        exact sign_hasSign (by simpa using hword) hop

end Lexeme

theorem Scan.hasSign_of_mem {source : String} {t : Token} (h : t ∈ (Scan.line source).tokens) :
    t.HasSign :=
  Scan.forall_chars (fun _ _ _ _ _ hl _ hop => Lexeme.first_hasSign hl hop) 0 source.toList t h

end Reckon
