import Reckon.Proofs.Function.Depth
import Reckon.Proofs.Statement.Writing
import Reckon.Proofs.Token.Tiling
/-!
Texts that are phrases by themselves. Such a text is the same phrase at any place of a line, in
front of whatever no lexeme goes on with, and inside of argument lists as far as these may be
nested (`Phrase.yields`). A text that is read alone as one statement is a phrase
(`IsStatement.phrase`). A smaller bound on the nesting of argument lists changes nothing in what is
read, except that reading may be cut short (`Reading.all_sameOrCut`).
-/
set_option autoImplicit false

namespace Reckon

/-- The bound for what stands inside of one more argument list. -/
def Limit.deeper : Limit → Limit := Option.map (· + 1)

theorem Limit.allows_deeper (limit : Limit) (n : Nat) :
    limit.deeper.allows (n + 1) = limit.allows n := by
  cases limit <;> simp [deeper, allows]

theorem Limit.allows_zero (limit : Limit) : limit.allows 0 = true := by
  cases limit <;> simp [allows]

theorem Scan.endsInQuote_iff (cs : List Char) : EndsInQuote cs ↔
    ((chars 0 cs).tokens.any fun t =>
      match cs.drop t.start with
      | [] => false
      | quote :: rest => Lexeme.isQuote quote && !rest.contains quote) = true := by
  simp only [EndsInQuote, List.any_eq_true]
  refine exists_congr fun t => and_congr_right fun _ => ?_
  cases hdrop : cs.drop t.start with
  | nil => simp
  | cons quote rest => simp [and_assoc]

instance (cs : List Char) : Decidable (Scan.EndsInQuote cs) :=
  decidable_of_iff' _ (Scan.endsInQuote_iff cs)

variable {limit limit' : Limit} {c : Category} {d : Nat} {e : Expr}

theorem Derives.moved {depth : Nat} {s : List Token} (f : Nat → Nat)
    (hlimit : ∀ n, limit.allows n = true → limit'.allows (n + depth) = true)
    (h : Derives limit d c s e) : Derives limit' (d + depth) c (s.map (Token.relocate f)) e := by
  induction h with
  | looser hc _ ih => exact .looser hc ih
  | join hj ht _ _ he ihl ihr =>
    rw [List.map_append, List.map_cons]
    exact .join hj ht ihl ihr he
  | signed hsign ht _ ih => exact .signed hsign ht ih
  | number ht => exact .number ht
  | name ht he => exact .name ht he
  | bareCall ht ho hclose he => exact .bareCall ht ho hclose he
  | @call d t o close initial s last e ht ho hclose hallows hcomma _ _ he ihi ihl =>
    let moved : LeadingArgument → LeadingArgument := fun a =>
      ⟨a.phrase.map (Token.relocate f), a.comma.relocate f, a.value⟩
    have hdepth : d + 1 + depth = d + depth + 1 := Nat.add_right_comm d 1 depth
    have htokens : (initial.flatMap LeadingArgument.tokens).map (Token.relocate f) =
        (initial.map moved).flatMap LeadingArgument.tokens := by
      simp [List.map_flatMap, List.flatMap_map, LeadingArgument.tokens, moved]
    have hvalues : (initial.map moved).map LeadingArgument.value =
        initial.map LeadingArgument.value := by
      simp [moved]
    have hinner := hlimit _ hallows
    rw [hdepth] at hinner ihi ihl
    rw [← hvalues] at he
    simp only [List.map_cons, List.map_append, htokens]
    refine .call ht ho hclose hinner (fun a ha => ?_) (fun a ha => ?_) ihl he
    · obtain ⟨a, hmem, rfl⟩ := List.mem_map.1 ha
      exact hcomma a hmem
    · obtain ⟨a, hmem, rfl⟩ := List.mem_map.1 ha
      exact ihi a hmem
  | group ho hclose _ ih =>
    rw [List.map_cons, List.map_append]
    exact .group ho hclose ih

/-- The tokens of the text are a phrase. -/
structure Phrase (limit : Limit) (c : Category) (text : List Char) (e : Expr) : Prop where
  scanned : (Scan.chars 0 text).failure = none
  derives : Derives limit 0 c (Scan.chars 0 text).tokens e

namespace Phrase

variable {text : List Char}

theorem chars_place (h : Phrase limit c text e) {depth : Nat}
    (hlimit : ∀ n, limit.allows n = true → limit'.allows (n + depth) = true) (start : Nat) :
    (Scan.chars start text).failure = none ∧
      Derives limit' depth c (Scan.chars start text).tokens e := by
  have hplace := Scan.chars_add 0 start text
  rw [Nat.zero_add] at hplace
  rw [hplace]
  refine ⟨by simp [Scan.shift, h.scanned], ?_⟩
  have hmoved := h.derives.moved (· + start) hlimit
  rwa [Nat.zero_add] at hmoved

theorem of_yields (h : Scan.Yields text [] fun ts => Derives limit 0 c ts e) :
    Phrase limit c text e := by
  obtain ⟨ts, hts, hchars⟩ := h 0
  rw [List.append_nil, Scan.scan_nil, List.append_nil] at hchars
  exact ⟨by rw [hchars], by rwa [hchars]⟩

theorem of_rank_le {c' : Category} (h : Phrase limit c text e) (hrank : c'.rank ≤ c.rank) :
    Phrase limit c' text e :=
  ⟨h.scanned, h.derives.of_rank_le hrank⟩

theorem numeral (n : Numeral) : Phrase limit .atom n.chars (.constant n.decimal.nearest) := by
  refine .of_yields ((Scan.Yields.numeral (by simp [Lexeme.Breaks]) n).mono ?_)
  rintro _ ⟨t, rfl, hkind, -⟩
  exact .number hkind

theorem unended {quote : Char} {name : String} (hquote : Lexeme.isQuote quote = true)
    (hname : quote ∉ name.toList) (hne : name ≠ ",") (he : Named name [] e) :
    Phrase limit .atom (quote :: name.toList) e :=
  .of_yields (.bareName (.unended hquote hname) hne he)

theorem yields_end (h : Phrase limit c text e) :
    Scan.Yields text [] fun ts => Derives limit 0 c ts e := by
  intro start
  have hlimit : ∀ n, limit.allows n = true → limit.allows (n + 0) = true := fun _ hn => hn
  obtain ⟨hscanned, hderives⟩ := h.chars_place hlimit start
  refine ⟨(Scan.chars start text).tokens, hderives, ?_⟩
  rw [List.append_nil, Scan.scan_nil, List.append_nil, ← hscanned]

theorem yields (h : Phrase limit c text e) (hclosed : ¬ Scan.EndsInQuote text) {depth : Nat}
    (hlimit : ∀ n, limit.allows n = true → limit'.allows (n + depth) = true) {mark : Char}
    (hmark : mark ∈ Lexeme.enders) (us : List Char) :
    Scan.Yields text (mark :: us) fun ts => Derives limit' depth c ts e := by
  intro start
  obtain ⟨hscanned, hderives⟩ := h.chars_place hlimit start
  exact ⟨(Scan.chars start text).tokens, hderives, Scan.chars_ender hmark hscanned hclosed us⟩

end Phrase

/-- The text alone is read, to its end, as one statement without a comma behind it, and leaves no
quote open. -/
structure IsStatement (limit : Limit) (text : String) (e : Expr) : Prop where
  read : Reading.ofQueue limit (.ofLine text) = ⟨[e], none⟩
  unseparated : ∀ t ∈ (Scan.line text).tokens.getLast?, t.isComma = false
  closed : ¬ Scan.EndsInQuote text.toList

namespace Reading

theorem tokens_of_ofQueue_nil {q : TokenQueue} (h : ofQueue limit q = ⟨[], none⟩) :
    q.tokens = [] := by
  refine Classical.byContradiction fun hne => ?_
  have hempty : q.tokens.isEmpty = false := by simpa using hne
  rw [ofQueue, upTo, hempty] at h
  rcases hstatement : q.statement ⟨false, limit⟩ with ⟨e | e, rest⟩ <;> simp [hstatement] at h

end Reading

theorem IsStatement.phrase {text : String} (h : IsStatement limit text e) :
    Phrase limit .assign text.toList e := by
  have hq := TokenQueue.hasSigns_ofLine text
  have hfailure : (TokenQueue.ofLine text).failure = none :=
    Reading.failure_eq_none hq (congrArg Reading.failure h.read)
  refine ⟨hfailure, ?_⟩
  have hne : (TokenQueue.ofLine text).tokens ≠ [] := by
    intro hnil
    have hread := h.read
    simp [Reading.ofQueue, Reading.upTo, hnil] at hread
  rcases hstatement : (TokenQueue.ofLine text).statement ⟨false, limit⟩ with ⟨err | e', rest⟩
  · have hread := h.read
    simp [Reading.ofQueue_of_error hne hstatement] at hread
  · obtain ⟨s, ending, htokens, -, hderives, hend⟩ := TokenQueue.statement_cases hq hstatement
    have hread := h.read
    simp only [Reading.ofQueue_of_statement hq hstatement, Reading.mk.injEq, List.cons.injEq]
      at hread
    obtain ⟨⟨rfl, hstatements⟩, hnone⟩ := hread
    have hrest : rest.tokens = [] :=
      Reading.tokens_of_ofQueue_nil (by rw [← hstatements, ← hnone])
    have htokens : (Scan.chars 0 text.toList).tokens = s ++ ending := htokens
    rcases hend with ⟨rfl, -, -⟩ | ⟨comma, hcomma, rfl, -⟩
    · rwa [htokens, List.append_nil]
    · have hlast := h.unseparated comma (by simp [Scan.line, htokens, hrest])
      rw [Token.isComma_iff.2 hcomma] at hlast
      cases hlast

namespace IsStatement

variable {text : String}

theorem yields_inside (h : IsStatement limit text e) (rest : List Char) :
    Scan.Yields text.toList (')' :: rest) fun ts => Derives limit 0 .assign ts e := by
  have hlimit : ∀ n, limit.allows n = true → limit.allows (n + 0) = true := fun _ hn => hn
  exact h.phrase.yields h.closed hlimit (by decide) rest

theorem yields_group (h : IsStatement limit text e) (rest : List Char) :
    Scan.Yields (Expr.grouped text.toList) rest fun ts => Derives limit 0 .atom ts e :=
  (h.yields_inside rest).between fun _ _ _ ho hc hts => .group ho hc hts

theorem closed_group (h : IsStatement limit text e) :
    ¬ Scan.EndsInQuote (Expr.grouped text.toList) := by
  intro hopen
  have hlast : Scan.Yields (Expr.grouped text.toList) [] fun ts =>
      ∀ t ∈ ts.getLast?, t.kind = .operator .closeParen := by
    refine (h.yields_inside []).between ?_
    intro o c ts _ hc _ t ht
    rw [← List.cons_append, List.getLast?_concat] at ht
    cases ht
    exact hc
  obtain ⟨ts, hts, hchars⟩ := hlast 0
  rw [List.append_nil, Scan.scan_nil, List.append_nil] at hchars
  obtain ⟨t, ht, hkind⟩ := hopen.last (by rw [hchars])
  rw [hchars] at ht
  rw [hts t ht] at hkind
  cases hkind

end IsStatement

section Cut

variable {α β : Type}

theorem Limit.SameOrCut.map {r r' : Except Error α} (f : α → β) (h : limit.SameOrCut r r') :
    limit.SameOrCut (r.map f) (r'.map f) := by
  rcases h with rfl | ⟨hlimit, rfl⟩
  · exact .refl limit _
  · exact .inr ⟨hlimit, rfl⟩

variable {larger : Limit}

theorem ReaderState.step_limit (hlimit : limit.Within larger) (nested : Bool) (s : ReaderState)
    (t : Token) : s.step ⟨nested, limit⟩ t = s.step ⟨nested, larger⟩ t ∨
      limit ≠ none ∧ s.step ⟨nested, limit⟩ t = .stop (.error .excessiveRecursion) false := by
  obtain ⟨l, calls, lookahead⟩ := s
  cases lookahead with
  | none => exact .inl rfl
  | named name => exact .inl rfl
  | opened name =>
    by_cases hclose : t.isOperator .closeParen = true
    · exact .inl (by simp [step, hclose])
    · cases hallows : limit.allows (calls.length + 1) with
      | true => exact .inl (by simp [step, hclose, hallows, hlimit _ hallows, place])
      | false =>
        refine .inr ⟨?_, by simp [step, hclose, hallows]⟩
        rintro rfl
        cases hallows

theorem ReaderState.read_limit (hlimit : limit.Within larger) (nested : Bool)
    (failure : Option LexicalError) (s : ReaderState) (ts : List Token) :
    s.read ⟨nested, limit⟩ failure ts = s.read ⟨nested, larger⟩ failure ts ∨
      limit ≠ none ∧ (s.read ⟨nested, limit⟩ failure ts).1 = .error .excessiveRecursion := by
  induction ts generalizing s with
  | nil => exact .inl rfl
  | cons t ts ih =>
    rcases step_limit hlimit nested s t with hstep | ⟨hbound, hstep⟩
    · simp only [read, hstep]
      cases s.step ⟨nested, larger⟩ t with
      | onward s' => exact ih s'
      | stop result taken => exact .inl rfl
    · exact .inr ⟨hbound, by simp [read, hstep]⟩

theorem Reading.all_cons (e : Expr) (r : Reading) :
    all ⟨e :: r.statements, r.failure⟩ = r.all.map (e :: ·) := by
  obtain ⟨statements, failure⟩ := r
  cases failure <;> rfl

theorem Reading.all_upTo_sameOrCut (hlimit : limit.Within larger) (count : Nat) (q : TokenQueue) :
    limit.SameOrCut (upTo limit count q).all (upTo larger count q).all := by
  induction count generalizing q with
  | zero => exact .refl limit _
  | succ count ih =>
    simp only [upTo]
    split
    · exact .refl limit _
    · rcases ReaderState.read_limit hlimit false q.failure .start q.tokens with
        hsame | ⟨hbound, hcut⟩
      · have hstatement : q.statement ⟨false, limit⟩ = q.statement ⟨false, larger⟩ := hsame
        rw [hstatement]
        rcases q.statement ⟨false, larger⟩ with ⟨err | e, rest⟩
        · exact .refl limit _
        · simp only [all_cons]
          exact (ih rest).map _
      · rcases hstatement : q.statement ⟨false, limit⟩ with ⟨err | e, rest⟩
        · have herr : err = .excessiveRecursion :=
            Except.error.inj ((congrArg Prod.fst hstatement).symm.trans hcut)
          exact .inr ⟨hbound, by rw [herr]; rfl⟩
        · have hfirst := (congrArg Prod.fst hstatement).symm.trans hcut
          cases hfirst

/-- A smaller bound can only cut the reading of a line short. -/
theorem Reading.all_sameOrCut (hlimit : limit.Within larger) (q : TokenQueue) :
    limit.SameOrCut (ofQueue limit q).all (ofQueue larger q).all :=
  all_upTo_sameOrCut hlimit _ q

end Cut

end Reckon
