import Reckon.Proofs.Decimal.Numeral
import Reckon.Proofs.Token.Joining
set_option autoImplicit false

namespace Reckon

/-- The first tokens of a text have the property, and the scan goes on behind its first part. -/
def Scan.Yields (cs rest : List Char) (P : List Token → Prop) : Prop :=
  ∀ start, ∃ ts, P ts ∧ chars start (cs ++ rest) =
    ⟨ts ++ (chars (start + cs.length) rest).tokens, (chars (start + cs.length) rest).failure⟩

def Token.Single (kind : TokenKind) (text : List Char) (ts : List Token) : Prop :=
  ∃ t, ts = [t] ∧ t.kind = kind ∧ t.text = String.ofList text

/-- Neither a word nor a numeral goes on with the text. -/
def Lexeme.Breaks (rest : List Char) : Prop :=
  ∀ c ∈ rest.head?, continuesWord c = false ∧ startsNumber c = false

namespace Scan.Yields

variable {cs ds rest : List Char} {P Q R : List Token → Prop} {c : Char}

theorem mono (h : Yields cs rest P) (hPQ : ∀ ts, P ts → Q ts) : Yields cs rest Q := by
  intro start
  obtain ⟨ts, hts, hchars⟩ := h start
  exact ⟨ts, hPQ ts hts, hchars⟩

theorem append (hfirst : Yields cs (ds ++ rest) P) (hsecond : Yields ds rest Q)
    (h : ∀ ts us, P ts → Q us → R (ts ++ us)) : Yields (cs ++ ds) rest R := by
  intro start
  obtain ⟨ts, hts, hchars⟩ := hfirst start
  obtain ⟨us, hus, hchars'⟩ := hsecond (start + cs.length)
  refine ⟨ts ++ us, h ts us hts hus, ?_⟩
  rw [List.append_assoc, hchars, hchars', List.length_append, ← Nat.add_assoc, List.append_assoc]

theorem blank (hc : Lexeme.isBlank c = true) (h : Yields cs rest P) : Yields (c :: cs) rest P := by
  intro start
  obtain ⟨ts, hts, hchars⟩ := h (start + 1)
  have hpos : start + 1 + cs.length = start + (c :: cs).length := by
    simp only [List.length_cons]
    omega
  exact ⟨ts, hts, by rw [List.cons_append, chars_of_blank start hc, hchars, hpos]⟩

theorem single {l : Lexeme} (hc : Lexeme.isBlank c = false)
    (hl : Lexeme.first 0 c (cs ++ rest) = .ok l) (hlen : l.length = (c :: cs).length) :
    Yields (c :: cs) rest (Token.Single l.kind l.text) := by
  intro start
  have hfirst := Lexeme.first_moved hl start
  have hskip : l.length - 1 = cs.length := by simp [hlen]
  have hpos : start + 1 + cs.length = start + (c :: cs).length := by
    simp only [List.length_cons]
    omega
  refine ⟨[l.toToken start], ⟨_, rfl, rfl, rfl⟩, ?_⟩
  rw [List.cons_append, chars_of_first hc hfirst, hskip, List.drop_left, hpos]
  rfl

end Scan.Yields

namespace Lexeme

variable {rest us ds : List Char} {c : Char} {n : Numeral} {start : Nat}

theorem decimalRun_append (hds : ∀ c ∈ ds, startsNumber c = true) (us : List Char) :
    decimalRun (ds ++ us) = ds ++ decimalRun us := by
  induction ds with
  | nil => rfl
  | cons d ds ih =>
    obtain ⟨hd, hds⟩ := List.forall_mem_cons.1 hds
    rw [List.cons_append, decimalRun_cons hd, ih hds, List.cons_append]

theorem startsNumber_of_isDigit (h : c.isDigit = true) : startsNumber c = true := by
  simp [startsNumber, h]

theorem startsNumber_of_mem_whole (hc : c ∈ n.whole) : startsNumber c = true :=
  startsNumber_of_isDigit (Numeral.isDigit_of_mem_whole hc)

theorem startsNumber_of_mem_pointChars (hc : c ∈ n.pointChars) : startsNumber c = true := by
  rcases Numeral.mem_pointChars hc with rfl | hdigit
  · rfl
  · exact startsNumber_of_isDigit hdigit

theorem isBlank_of_startsNumber (h : startsNumber c = true) : isBlank c = false := by
  have hne : 46 ≤ c.toNat := by
    rcases (by simpa [startsNumber] using h : c.isDigit = true ∨ c = '.') with hdigit | rfl
    · have := (Char.isDigit_iff_toNat.1 hdigit).1
      simp at this
      omega
    · decide
  simp only [isBlank, Bool.or_eq_false_iff, beq_eq_false_iff_ne, Bool.and_eq_false_iff,
    decide_eq_false_iff_not]
  omega

theorem breaks_cons (hc : c ∈ '(' :: enders) (cs : List Char) : Breaks (c :: cs) := by
  intro d hd
  cases hd
  rcases List.mem_cons.1 hc with rfl | hender
  · exact ⟨by decide, by decide⟩
  · exact ⟨continuesWord_ender hender, startsNumber_ender hender⟩

theorem decimalRun_marker {m : Char} (hm : m ∈ ['x', 'b']) (us : List Char) :
    decimalRun ('0' :: m :: us) = ['0'] := by
  rcases (by simpa using hm : m = 'x' ∨ m = 'b') with rfl | rfl <;> rfl

theorem continuesWord_marker {m : Char} (hm : m ∈ ['x', 'b']) : continuesWord m = true := by
  rcases (by simpa using hm : m = 'x' ∨ m = 'b') with rfl | rfl <;> decide

namespace Breaks

theorem decimalRun_eq_nil (h : Breaks rest) : decimalRun rest = [] := by
  cases rest with
  | nil => rfl
  | cons c cs =>
    obtain ⟨hword, hnumber⟩ := h c rfl
    have hne : c ≠ 'e' := by
      rintro rfl
      exact absurd hword (by decide)
    have hstop : (startsNumber c || c == 'e') = false := by simp [hnumber, hne]
    rw [decimalRun, hstop]
    · rfl
    · rintro us rfl
      exact absurd rfl hne

theorem decimalRun_exponent (h : Breaks rest) (x : Exponent) :
    decimalRun (x.chars ++ rest) = x.chars := by
  obtain ⟨negative, digits, hdigits, hne⟩ := x
  have hrun : decimalRun (digits ++ rest) = digits := by
    rw [decimalRun_append (fun c hc => startsNumber_of_isDigit (hdigits c hc)),
      h.decimalRun_eq_nil, List.append_nil]
  cases negative with
  | true => simp [Exponent.chars, decimalRun, hrun]
  | false =>
    have hminus : ∀ cs, 'e' = 'e' → digits ++ rest = '-' :: cs → False := by
      intro cs _ heq
      cases digits with
      | nil => exact hne rfl
      | cons d ds =>
        have hd := hdigits d (by simp)
        rw [(List.cons.inj heq).1] at hd
        exact absurd hd (by decide)
    simp [Exponent.chars, decimalRun, hrun]

theorem decimalRun_chars (h : Breaks rest) (n : Numeral) :
    decimalRun (n.chars ++ rest) = n.chars := by
  have hexponent : decimalRun (n.exponentChars ++ rest) = n.exponentChars := by
    cases hx : n.exponent? with
    | none => simpa [Numeral.exponentChars, hx] using h.decimalRun_eq_nil
    | some x => simpa [Numeral.exponentChars, hx] using h.decimalRun_exponent x
  simp only [Numeral.chars, List.append_assoc]
  rw [decimalRun_append fun c => startsNumber_of_mem_whole,
    decimalRun_append fun c => startsNumber_of_mem_pointChars, hexponent]

theorem number_chars (h : Breaks rest) (n : Numeral) (start : Nat) :
    number start (n.chars ++ rest) =
      .ok ⟨.number n.decimal.nearest, n.chars, n.chars.length⟩ := by
  have hrun := h.decimalRun_chars n
  have hmarker : ∀ m ∈ ['x', 'b'], ¬ ['0', m] <+: n.chars ++ rest := by
    rintro m hm ⟨us, heq⟩
    rw [← heq, List.cons_append, List.singleton_append, decimalRun_marker hm] at hrun
    rw [← hrun] at heq
    have hrest : rest = m :: us := by simpa using heq.symm
    have hbreak := (h m (by simp [hrest])).1
    rw [continuesWord_marker hm] at hbreak
    cases hbreak
  rw [number_eq_decimal (hmarker 'x' (by decide)) (hmarker 'b' (by decide))]
  simp [decimal, hrun, n.read?_chars]

end Breaks

end Lexeme

namespace Numeral

theorem exists_cons (n : Numeral) :
    ∃ c cs, n.whole ++ n.pointChars = c :: cs ∧ Lexeme.startsNumber c = true := by
  have hne : n.whole ++ n.pointChars ≠ [] := by
    intro hnil
    obtain ⟨hwhole, hpoint⟩ := List.append_eq_nil_iff.1 hnil
    cases hfraction : n.fraction? with
    | none => exact n.ne_nil (by simp [hwhole, hfraction])
    | some ds => simp [pointChars, hfraction] at hpoint
  obtain ⟨c, cs, heq⟩ := List.exists_cons_of_ne_nil hne
  have hc : c ∈ n.whole ++ n.pointChars := by simp [heq]
  exact ⟨c, cs, heq, (List.mem_append.1 hc).elim Lexeme.startsNumber_of_mem_whole
    Lexeme.startsNumber_of_mem_pointChars⟩

theorem chars_eq_cons (n : Numeral) :
    ∃ c cs, n.chars = c :: cs ∧ Lexeme.startsNumber c = true := by
  obtain ⟨c, cs, heq, hc⟩ := n.exists_cons
  exact ⟨c, cs ++ n.exponentChars, by rw [chars, ← List.append_assoc, heq, List.cons_append], hc⟩

end Numeral

def Lexeme.inQuotes (quote : Char) (cs : List Char) : List Char := quote :: (cs ++ [quote])

namespace Operator

variable {op other : Operator} {text rest : List Char} {c d : Char}

theorem name_ne_comma (hop : op ∈ table) : op.name ≠ "," := by
  intro hname
  have hmem := delimiter_not_mem_name hop (d := ',') (by decide)
  rw [hname] at hmem
  exact hmem (by decide)

theorem longest?_name_append (hop : op ∈ table)
    (h : ∀ other ∈ table, op.name.toList <+: other.name.toList →
      other.name.toList <+: op.name.toList ++ rest → other.name.length = op.name.length) :
    longest? (op.name.toList ++ rest) = some op := by
  refine longest?_eq_iff.2 ⟨hop, List.prefix_append .., fun other hother hpre => ?_⟩
  by_cases hlonger : op.name.length ≤ other.name.length
  · have hlength : op.name.toList.length ≤ other.name.toList.length := by
      rwa [String.length_toList, String.length_toList]
    have hstart := List.prefix_of_prefix_length_le (List.prefix_append ..) hpre hlength
    exact Nat.le_of_eq (h other hother hstart hpre)
  · omega

theorem longest?_name_cons (hop : op ∈ table) (hd : d ∈ [' ', '(', ',']) (us : List Char) :
    longest? (op.name.toList ++ d :: us) = some op := by
  refine longest?_name_append hop fun other hother hstart hpre => ?_
  obtain ⟨ds, hds⟩ := hstart
  cases ds with
  | nil => rw [← String.length_toList, ← hds, List.append_nil, String.length_toList]
  | cons e es =>
    obtain ⟨c, cs, hname⟩ := List.exists_cons_of_ne_nil (name_ne_nil hop)
    have he : e = d := by
      rw [← hds, List.prefix_append_right_inj] at hpre
      exact (List.cons_prefix_cons.1 hpre).1
    refine absurd ?_ (not_mem_tail_name hother hd)
    simp [← hds, hname, he]

theorem name_of_paren (hop : op ∈ table) (hd : d ∈ ['(', ')'])
    (hhead : op.name.toList.head? = some d) : op.name.toList = [d] := by
  cases hcall : op.isCall with
  | true =>
    have hword := Lexeme.continuesWord_of_mem (List.mem_cons_of_mem _ (List.mem_append_left _ hd))
    exact absurd (List.mem_of_mem_head? hhead) (not_mem_of_isWord (isWord_name hop hcall) hword)
  | false =>
    have hsign := isSign_name hop hcall
    cases hname : op.name.toList with
    | nil => simp [hname] at hhead
    | cons c cs =>
      have hc : c = d := by simpa [hname] using hhead
      subst hc
      rcases (by simpa using hd : c = '(' ∨ c = ')') with rfl | rfl <;>
        simp_all [isSign]

theorem longest?_paren (hop : op ∈ table) (hd : d ∈ ['(', ')']) (hname : op.name.toList = [d])
    (rest : List Char) : longest? (op.name.toList ++ rest) = some op := by
  refine longest?_name_append hop fun other hother hstart _ => ?_
  obtain ⟨ds, hds⟩ := hstart
  have hother := name_of_paren hother hd (by simp [← hds, hname])
  rw [← String.length_toList, hother, ← hname, String.length_toList]

end Operator

namespace Scan.Yields

variable {rest name : List Char} {quote : Char} {op : Operator}

theorem numeral (h : Lexeme.Breaks rest) (n : Numeral) :
    Yields n.chars rest (Token.Single (.number n.decimal.nearest) n.chars) := by
  obtain ⟨c, cs, hchars, hc⟩ := n.chars_eq_cons
  have hnumber := h.number_chars n 0
  rw [hchars] at hnumber ⊢
  refine single (Lexeme.isBlank_of_startsNumber hc) (l := ⟨_, c :: cs, _⟩) ?_ rfl
  rw [Lexeme.first, if_pos hc]
  exact hnumber

theorem quoted (hquote : Lexeme.isQuote quote = true) (hname : quote ∉ name) :
    Yields (Lexeme.inQuotes quote name) rest (Token.Single .text name) := by
  refine single (Lexeme.isBlank_of_isQuote hquote) (l := ⟨.text, name, name.length + 2⟩) ?_
    (by simp)
  rw [Lexeme.first_quote hquote, List.append_assoc, List.singleton_append,
    Lexeme.quoted_closed hname]

theorem unended (hquote : Lexeme.isQuote quote = true) (hname : quote ∉ name) :
    Yields (quote :: name) [] (Token.Single .text name) := by
  refine single (Lexeme.isBlank_of_isQuote hquote) (l := ⟨.text, name, name.length + 1⟩) ?_ rfl
  rw [List.append_nil, Lexeme.first_quote hquote, Lexeme.quoted_unended hname]

theorem word (hword : Operator.isWord name = true) (h : Lexeme.Breaks rest) :
    Yields name rest (Token.Single .text name) := by
  cases name with
  | nil => cases hword
  | cons c cs =>
    simp only [Operator.isWord, Bool.and_eq_true, Bool.not_eq_true', List.all_eq_true] at hword
    obtain ⟨⟨⟨hblank, hnumber⟩, hstart⟩, hall⟩ := hword
    have htake : (cs ++ rest).takeWhile Lexeme.continuesWord = cs := by
      rw [List.takeWhile_append_of_pos hall]
      cases rest with
      | nil => simp
      | cons d ds => simp [(h d rfl).1]
    refine single hblank (l := ⟨.text, c :: cs, cs.length + 1⟩) ?_ rfl
    rw [Lexeme.first, hnumber, hstart]
    simp [Lexeme.word, htake]

theorem sign (hop : op ∈ Operator.table) (hcall : op.isCall = false)
    (h : Operator.longest? (op.name.toList ++ rest) = some op) :
    Yields op.name.toList rest (Token.Single (.operator op) op.name.toList) := by
  have hsign := Operator.isSign_name hop hcall
  have hlen : op.name.length = op.name.toList.length := String.length_toList.symm
  cases hname : op.name.toList with
  | nil => simp [hname, Operator.isSign] at hsign
  | cons c cs =>
    rw [hname] at h hlen
    simp only [hname, Operator.isSign, Bool.and_eq_true, Bool.not_eq_true'] at hsign
    obtain ⟨⟨⟨⟨⟨⟨hblank, hnumber⟩, hword⟩, hquote⟩, -⟩, -⟩, -⟩ := hsign
    refine single hblank (l := ⟨.operator op, c :: cs, op.name.length⟩) ?_ hlen
    rw [List.cons_append] at h
    rw [Lexeme.first, hnumber, hword, hquote]
    simp [Lexeme.sign, h, hname]

theorem paren {op : Operator} {c : Char} (hop : op ∈ Operator.table) (hcall : op.isCall = false)
    (hc : c ∈ ['(', ')']) (hname : op.name.toList = [c]) :
    Yields [c] rest (Token.Single (.operator op) [c]) := by
  have hsign := sign hop hcall (Operator.longest?_paren hop hc hname rest)
  rwa [hname] at hsign

theorem openParen : Yields ['('] rest (Token.Single (.operator .openParen) ['(']) :=
  paren (by decide) rfl (by decide) (by decide)

theorem closeParen : Yields [')'] rest (Token.Single (.operator .closeParen) [')']) :=
  paren (by decide) rfl (by decide) (by decide)

theorem comma : Yields [','] rest (Token.Single .text [',']) :=
  single (by decide) (Lexeme.first_of_comma 0 rest) rfl

theorem minus : Yields ['-'] rest (Token.Single (.operator .subtract) ['-']) := by
  have hmem : Operator.subtract ∈ Operator.table := by decide
  have hnames : ∀ op ∈ Operator.table, ['-'] <+: op.name.toList → op.name.length = 1 := by
    decide +kernel
  exact sign hmem rfl (Operator.longest?_name_append hmem
    fun other hother hstart _ => hnames other hother hstart)

end Scan.Yields

end Reckon
