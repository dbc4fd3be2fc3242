import Reckon.Statement.Line
import Reckon.Proofs.Statement.Exactness
set_option autoImplicit false

namespace Reckon

variable {limit : Limit} {q rest : TokenQueue} {e : Expr}

/-- Every token can stand where it is found. -/
def TokenQueue.HasSigns (q : TokenQueue) : Prop := ∀ t ∈ q.tokens, t.HasSign

theorem TokenQueue.hasSigns_ofLine (source : String) : (TokenQueue.ofLine source).HasSigns :=
  fun _ ht => Scan.hasSign_of_mem ht

theorem TokenQueue.statement_cases (hq : q.HasSigns)
    (h : q.statement ⟨false, limit⟩ = (.ok e, rest)) :
    ∃ s ending, q.tokens = s ++ ending ∧ s ≠ [] ∧ Derives limit 0 .assign s e ∧
      ((ending = [] ∧ q.failure = none ∧ rest = ⟨[], none⟩) ∨
        ∃ comma, comma.IsSeparator ∧ ending = comma :: rest.tokens ∧ rest.failure = q.failure) := by
  have hstart : Traced limit ReaderState.start [] := .start .nil .nil
  have hread : ReaderState.start.read ⟨false, limit⟩ q.failure q.tokens = (.ok e, rest) := h
  obtain ⟨s, ending, htokens, hderives, hend⟩ := Traced.sentence hstart hq hread
  obtain ⟨t, r, hs, -⟩ := hderives.head
  have hne : s ≠ [] := by simp [hs]
  refine ⟨s, ending, htokens, hne, hderives, ?_⟩
  generalize hfailure : q.failure = failure at hend
  cases hend with
  | line => exact .inl ⟨rfl, rfl, rfl⟩
  | separator ht => exact .inr ⟨_, ht, rfl, rfl⟩
  | closeParen hnested => cases hnested

theorem TokenQueue.length_lt_of_statement (hq : q.HasSigns)
    (h : q.statement ⟨false, limit⟩ = (.ok e, rest)) :
    rest.tokens.length < q.tokens.length := by
  obtain ⟨s, ending, htokens, hne, -, hend⟩ := statement_cases hq h
  have hs : 0 < s.length := List.length_pos_iff.2 hne
  have hlength := congrArg List.length htokens
  simp only [List.length_append] at hlength
  rcases hend with ⟨rfl, -, rfl⟩ | ⟨comma, -, rfl, -⟩
  · simpa [hlength] using hs
  · simp only [List.length_cons] at hlength
    omega

theorem TokenQueue.HasSigns.remaining (hq : q.HasSigns)
    (h : q.statement ⟨false, limit⟩ = (.ok e, rest)) : rest.HasSigns := by
  obtain ⟨s, ending, htokens, -, -, hend⟩ := statement_cases hq h
  rcases hend with ⟨-, -, rfl⟩ | ⟨comma, -, rfl, -⟩
  · simp [TokenQueue.HasSigns]
  · exact fun t ht => hq t (by simp [htokens, ht])

namespace Reading

theorem upTo_of_lt {count : Nat} (hq : q.HasSigns) (h : q.tokens.length < count) :
    upTo limit count q = ofQueue limit q := by
  -- The counts on the two sides differ, but each stays above the number of tokens left.
  induction hlen : q.tokens.length using Nat.strongRecOn generalizing q count with
  | ind len ih =>
    cases count with
    | zero => omega
    | succ count =>
      simp only [ofQueue, upTo]
      split
      · rfl
      · rcases hstatement : q.statement ⟨false, limit⟩ with ⟨e | e, rest⟩
        · rfl
        · have hlt := TokenQueue.length_lt_of_statement hq hstatement
          have hrest := hq.remaining hstatement
          have hcount : rest.tokens.length < count := by omega
          have hmore := ih rest.tokens.length (by omega) hrest hcount rfl
          have hexact := ih rest.tokens.length (by omega) hrest hlt rfl
          simp only [hmore, hexact]

theorem ofQueue_of_statement (hq : q.HasSigns) (h : q.statement ⟨false, limit⟩ = (.ok e, rest)) :
    ofQueue limit q = ⟨e :: (ofQueue limit rest).statements, (ofQueue limit rest).failure⟩ := by
  have hlt := TokenQueue.length_lt_of_statement hq h
  have hne : q.tokens.isEmpty = false := by
    cases htokens : q.tokens with
    | nil => simp [htokens] at hlt
    | cons t ts => rfl
  rw [ofQueue, upTo, hne]
  simp only [h, Bool.false_eq_true, if_false, upTo_of_lt (hq.remaining h) hlt]

theorem ofQueue_of_error {err : Error} (hne : q.tokens ≠ [])
    (h : q.statement ⟨false, limit⟩ = (.error err, rest)) : ofQueue limit q = ⟨[], some err⟩ := by
  have hempty : q.tokens.isEmpty = false := by simpa using hne
  rw [ofQueue, upTo, hempty]
  simp only [h, Bool.false_eq_true, if_false]

/-- What is wrong with the tokens is noticed when all of them are read. -/
theorem failure_eq_none (hq : q.HasSigns) (hread : (ofQueue limit q).failure = none) :
    q.failure = none := by
  induction hlen : q.tokens.length using Nat.strongRecOn generalizing q with
  | ind len ih =>
    by_cases hne : q.tokens = []
    · cases hfailure : q.failure with
      | none => rfl
      | some e => simp [ofQueue, upTo, hne, hfailure] at hread
    · rcases hstatement : q.statement ⟨false, limit⟩ with ⟨err | e, rest⟩
      · rw [ofQueue_of_error hne hstatement] at hread
        cases hread
      · have hlt := TokenQueue.length_lt_of_statement hq hstatement
        obtain ⟨s, ending, -, -, -, hend⟩ := TokenQueue.statement_cases hq hstatement
        rcases hend with ⟨-, hnone, -⟩ | ⟨c, -, -, hsame⟩
        · exact hnone
        · rw [ofQueue_of_statement hq hstatement] at hread
          rw [← hsame]
          exact ih rest.tokens.length (by omega) (hq.remaining hstatement) hread rfl

theorem ofQueue_comma {comma : Token} {ts us : List Token} {failure : Option LexicalError}
    (hcomma : comma.IsSeparator) (hus : ∀ t ∈ us, t.HasSign) (hts : ∀ t ∈ ts, t.HasSign)
    (hne : ts ≠ []) (hlast : ∀ t ∈ ts.getLast?, t.isComma = false)
    (hread : (ofQueue limit ⟨ts, none⟩).failure = none) :
    ofQueue limit ⟨ts ++ comma :: us, failure⟩ =
      ⟨(ofQueue limit ⟨ts, none⟩).statements ++ (ofQueue limit ⟨us, failure⟩).statements,
        (ofQueue limit ⟨us, failure⟩).failure⟩ := by
  have hkind : comma.HasSign := by
    intro op hop
    rw [hcomma.1] at hop
    cases hop
  -- Each statement takes tokens, so what a comma inside the first line leaves is shorter.
  induction hlen : ts.length using Nat.strongRecOn generalizing ts with
  | ind len ih =>
    have hsigns : TokenQueue.HasSigns ⟨ts, none⟩ := hts
    have hall : TokenQueue.HasSigns ⟨ts ++ comma :: us, failure⟩ := by
      intro t ht
      rcases List.mem_append.1 ht with ht | ht
      · exact hts t ht
      · rcases List.mem_cons.1 ht with rfl | ht
        · exact hkind
        · exact hus t ht
    rcases hstatement : TokenQueue.statement ⟨false, limit⟩ ⟨ts, none⟩ with ⟨err | e, rest⟩
    · rw [ofQueue_of_error hne hstatement] at hread
      cases hread
    · have hfirst := ofQueue_of_statement hsigns hstatement
      obtain ⟨s, ending, htokens, -, hderives, hend⟩ :=
        TokenQueue.statement_cases hsigns hstatement
      simp only at htokens hend
      rcases hend with ⟨rfl, -, rfl⟩ | ⟨c, hc, rfl, hfailure⟩
      · have hwhole : TokenQueue.statement ⟨false, limit⟩ ⟨ts ++ comma :: us, failure⟩ =
            (.ok e, ⟨us, failure⟩) := by
          rw [List.append_nil] at htokens
          subst htokens
          exact hderives.statement rfl (.separator hcomma)
        rw [ofQueue_of_statement hall hwhole, hfirst]
        rfl
      · obtain ⟨tokens, failed⟩ := rest
        simp only at hfailure htokens
        subst hfailure htokens
        have hwhole : TokenQueue.statement ⟨false, limit⟩
            ⟨(s ++ c :: tokens) ++ comma :: us, failure⟩ =
              (.ok e, ⟨tokens ++ comma :: us, failure⟩) :=
          hderives.statement (by simp) (.separator hc)
        rw [hfirst] at hread
        have htail : ∀ t ∈ tokens, t.HasSign := fun t ht => hts t (by simp [ht])
        have hremain : tokens ≠ [] := by
          rintro rfl
          have hcomma' := hlast c (by simp)
          rw [Token.isComma_iff.2 hc] at hcomma'
          cases hcomma'
        have hlast' : ∀ t ∈ tokens.getLast?, t.isComma = false := by
          intro t ht
          refine hlast t ?_
          rw [List.getLast?_append]
          obtain ⟨u, tokens, rfl⟩ := List.exists_cons_of_ne_nil hremain
          simpa using ht
        have hrest := ih tokens.length (by simp at hlen; omega) htail hremain hlast' hread rfl
        rw [ofQueue_of_statement hall hwhole, hfirst, hrest]
        rfl

end Reading

end Reckon
