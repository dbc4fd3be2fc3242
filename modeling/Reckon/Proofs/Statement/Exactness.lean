import Reckon.Proofs.Statement.Acceptance
import Reckon.Proofs.Statement.Moves
import Reckon.Proofs.Statement.Stack
import Reckon.Proofs.Token.Signs
/-!
The reader reads the sentences of the grammar and nothing else. Of every state the tokens that
led to it are described (`Traced`), each step keeps that description (`Traced.step`), and where
a statement is read, it says that the tokens before its end are a sentence.
-/
set_option autoImplicit false

namespace Reckon

/-- The tokens of the calls whose argument lists are open, up to the argument being read. -/
inductive CallsOpen (limit : Limit) : List OpenCall → List Token → Prop where
  | nil : CallsOpen limit [] []
  | cons {calls : List OpenCall} {outer s : List Token} {c : Category} {ws : List Waiting}
      {t o : Token} (initial : List LeadingArgument) :
      CallsOpen limit calls outer → Begun limit calls.length c ws s → t.IsName →
      o.kind = .operator .openParen → limit.allows (calls.length + 1) = true →
      (∀ a ∈ initial, a.comma.IsSeparator) →
      (∀ a ∈ initial, Derives limit (calls.length + 1) .assign a.phrase a.value) →
      CallsOpen limit (⟨t.text, ws, (initial.map LeadingArgument.value).reverse⟩ :: calls)
        (outer ++ (s ++ (t :: o :: initial.flatMap LeadingArgument.tokens)))

/-- The tokens that led to a state. -/
inductive Traced (limit : Limit) : ReaderState → List Token → Prop where
  | start {calls : List OpenCall} {outer s : List Token} {c : Category} {ws : List Waiting} :
      CallsOpen limit calls outer → Begun limit calls.length c ws s →
      Traced limit ⟨⟨none, ws⟩, calls, .none⟩ (outer ++ s)
  | operand {calls : List OpenCall} {outer s l : List Token} {c : Category} {ws : List Waiting}
      {e : Expr} :
      CallsOpen limit calls outer → Begun limit calls.length c ws s →
      Derives limit calls.length .atom l e →
      Traced limit ⟨⟨some e, ws⟩, calls, .none⟩ (outer ++ (s ++ l))
  | named {calls : List OpenCall} {outer s : List Token} {c : Category} {ws : List Waiting}
      {t : Token} :
      CallsOpen limit calls outer → Begun limit calls.length c ws s → t.IsName →
      Traced limit ⟨⟨none, ws⟩, calls, .named t.text⟩ (outer ++ (s ++ [t]))
  | opened {calls : List OpenCall} {outer s : List Token} {c : Category} {ws : List Waiting}
      {t o : Token} :
      CallsOpen limit calls outer → Begun limit calls.length c ws s → t.IsName →
      o.kind = .operator .openParen →
      Traced limit ⟨⟨none, ws⟩, calls, .opened t.text⟩ (outer ++ (s ++ [t, o]))

section Fitting

variable {mode : ReaderMode} {limit : Limit} {failure : Option LexicalError}
  {s s' : ReaderState} {t : Token} {l : Level} {calls : List OpenCall} {e : Expr}

/-- No operator waits for an operand that it cannot get. -/
def ReaderState.Fits (s : ReaderState) : Prop :=
  s.level.Fits ∧ ∀ call ∈ s.calls, ∀ w ∈ call.waiting, w.Fits

theorem ReaderState.Resolves.fits (h : Resolves limit s s') (hs' : s'.Fits) : s.Fits := by
  cases h with
  | none => exact hs'
  | named => exact hs'
  | opened =>
    obtain ⟨hlevel, hcalls⟩ := List.forall_mem_cons.1 hs'.2
    exact ⟨hlevel, hcalls⟩

theorem ReaderState.Places.fits (h : Places mode l calls t (.onward s')) (ht : t.HasSign)
    (hs' : s'.Fits) : Fits ⟨l, calls, .none⟩ := by
  obtain ⟨hlevel, hcalls⟩ := hs'
  cases h with
  | separator _ hfinish =>
    obtain ⟨hcall, hrest⟩ := List.forall_mem_cons.1 hcalls
    exact ⟨Level.finish_fits hfinish, List.forall_mem_cons.2 ⟨hcall, hrest⟩⟩
  | closeCall _ hfinish =>
    exact ⟨Level.finish_fits hfinish, List.forall_mem_cons.2 ⟨hlevel, hcalls⟩⟩
  | push hop hpush =>
    obtain ⟨hmem, hcall⟩ := ht _ hop
    exact ⟨(Level.pushes_of_push hmem hcall hpush).fits hlevel, hcalls⟩
  | number => exact ⟨hlevel, hcalls⟩
  | name => exact ⟨hlevel, hcalls⟩

theorem ReaderState.Moves.fits (h : Moves mode s t (.onward s')) (ht : t.HasSign)
    (hs' : s'.Fits) : s.Fits := by
  cases h with
  | openList => exact hs'
  | bareCall => exact hs'
  | place hresolves hplaces => exact hresolves.fits (hplaces.fits ht hs')

theorem ReaderState.Moves.fits_of_stop {taken : Bool} (h : Moves mode s t (.stop (.ok e) taken)) :
    s.Fits := by
  cases h with
  | place hresolves hplaces =>
    refine hresolves.fits ?_
    cases hplaces with
    | endSeparator _ hfinish => exact ⟨Level.finish_fits hfinish, by simp⟩
    | endParen _ _ hfinish => exact ⟨Level.finish_fits hfinish, by simp⟩

theorem ReaderState.fits_of_read {rest : TokenQueue} {ts : List Token}
    (hts : ∀ t ∈ ts, t.HasSign) (h : s.read mode failure ts = (.ok e, rest)) : s.Fits := by
  -- An operator that fits nothing is never settled, so it would still wait at the end.
  induction ts generalizing s with
  | nil =>
    cases failure with
    | some err => cases h
    | none =>
      have hend : s.atEnd = .ok e := congrArg Prod.fst h
      obtain ⟨l, hresolves, hfinish⟩ := resolves_of_atEnd mode.limit hend
      exact hresolves.fits ⟨Level.finish_fits hfinish, by simp⟩
  | cons t ts ih =>
    rcases moves_of_step mode s t with hmoves | ⟨err, taken, hstep⟩
    · cases hstep : step mode s t with
      | onward s' =>
        rw [read_of_onward hstep] at h
        rw [hstep] at hmoves
        exact hmoves.fits (hts t (by simp)) (ih (fun u hu => hts u (by simp [hu])) h)
      | stop result taken =>
        simp only [read, hstep, Prod.mk.injEq] at h
        rw [hstep, h.1] at hmoves
        exact hmoves.fits_of_stop
    · simp [read, hstep] at h

end Fitting

section Tracing

variable {mode : ReaderMode} {limit : Limit} {d : Nat} {c : Category} {ws : List Waiting}
  {s s' : ReaderState} {consumed l : List Token} {t : Token} {level : Level}
  {calls : List OpenCall} {e e' : Expr}

theorem Begun.tokens_nil {r : List Token} (h : Begun limit d c [] r) : r = [] := by
  cases h
  rfl

theorem Begun.finish {r : List Token} (h : Begun limit d c ws r) (hl : Derives limit d .atom l e)
    (hfinish : (Level.mk (some e) ws).finish = .ok e') :
    Derives limit d .assign (r ++ l) e' := by
  obtain ⟨_, hoperand, hsettle⟩ := Level.settle_of_finish hfinish
  cases hoperand
  have hatom : c.rank ≤ Category.atom.rank :=
    Nat.le_trans h.rank_le_unary (by decide)
  obtain ⟨_, _, _, _, hbegun, hderives, -, hleast, heq, -⟩ :=
    h.settle 3 rfl (fun j _ _ => Category.three_le_rank j.whole) (fun _ => by decide) hl hatom
      (by decide) hsettle
  rw [heq, hbegun.tokens_nil, List.nil_append]
  exact hderives.of_rank_le hleast

theorem Traced.finish (h : Traced limit ⟨level, calls, .none⟩ consumed)
    (hfinish : level.finish = .ok e) :
    ∃ outer r, consumed = outer ++ r ∧ CallsOpen limit calls outer ∧
      Derives limit calls.length .assign r e := by
  cases h with
  | start => cases hfinish
  | operand hcalls hbegun hatom => exact ⟨_, _, rfl, hcalls, hbegun.finish hatom hfinish⟩

theorem Traced.resolves (h : Traced limit s consumed) (hs : ReaderState.Resolves limit s s') :
    Traced limit s' consumed := by
  cases hs with
  | none => exact h
  | named hnamed =>
    cases h with
    | named hcalls hbegun hname => exact .operand hcalls hbegun (.name hname hnamed)
  | opened hallows =>
    cases h with
    | opened hcalls hbegun hname hopen =>
      have hcall := CallsOpen.cons [] hcalls hbegun hname hopen hallows
        (by simp) (by simp)
      have hstart := Traced.start hcall .nil
      rw [List.append_nil] at hstart
      exact hstart

theorem Traced.push {op : Operator} {level' : Level}
    (h : Traced limit ⟨level, calls, .none⟩ consumed) (ht : t.kind = .operator op)
    (hpush : Level.Pushes level op level') (hfits : level'.Fits) :
    Traced limit ⟨level', calls, .none⟩ (consumed ++ [t]) := by
  cases hpush with
  | signed hp =>
    cases h with
    | start hcalls hbegun =>
      rw [List.append_assoc]
      exact .start hcalls (.signed hbegun hp ht)
  | group =>
    cases h with
    | start hcalls hbegun =>
      rw [List.append_assoc]
      exact .start hcalls (.group hbegun ht)
  | @join j operand ws st hj hst hclosed =>
    cases h with
    | @operand _ outer r l c _ _ hcalls hbegun hatom =>
      have hrank : c.rank ≤ Category.atom.rank := Nat.le_trans hbegun.rank_le_unary (by decide)
      have hsettled := hbegun.settle j.left.rank (Join.isUnary_sign hj)
        (Join.left_le_whole j hj) (Join.left_le_unary j hj) hatom hrank (Join.left_le_atom j hj) hst
      rw [hclosed] at hsettled
      obtain ⟨c', c₁, r', l', hbegun', hl', -, hleft, heq, hlevel⟩ := hsettled
      rw [Join.level_sign j hj] at hlevel
      have hjoin := Begun.join hbegun' hj (hlevel (Category.three_le_rank j.whole))
        (hl'.of_rank_le hleft) ht
      have htokens : (outer ++ (r ++ l)) ++ [t] = outer ++ (r' ++ (l' ++ [t])) := by
        rw [heq]
        simp
      rw [htokens]
      exact .start hcalls hjoin
  | @closeGroup operand ws st hst hclosed =>
    cases h with
    | @operand _ outer r l c _ _ hcalls hbegun hatom =>
      have hrank : c.rank ≤ Category.atom.rank := Nat.le_trans hbegun.rank_le_unary (by decide)
      have hsettled := hbegun.settle 3 rfl
        (fun j _ _ => Category.three_le_rank j.whole) (fun _ => by decide) hatom hrank
        (by decide) hst
      rw [hclosed] at hsettled
      obtain ⟨c', r', o, l', hbegun', ho, hl', heq⟩ := hsettled
      have htokens : (outer ++ (r ++ l)) ++ [t] = outer ++ (r' ++ (o :: (l' ++ [t]))) := by
        rw [heq]
        simp
      rw [htokens]
      exact .operand hcalls hbegun' (.group ho ht hl')
  | misfit hw =>
    -- No phrase begins so; only what is read later rules it out.
    exact absurd (hfits _ (List.mem_cons_self ..)) hw

theorem CallsOpen.separator {call : OpenCall} {outer r : List Token}
    (h : CallsOpen limit (call :: calls) outer) (ht : t.IsSeparator)
    (hr : Derives limit (calls.length + 1) .assign r e) :
    CallsOpen limit ({ call with arguments := e :: call.arguments } :: calls)
      (outer ++ (r ++ [t])) := by
  cases h with
  | @cons _ outer s c ws name o initial hcalls hbegun hname hopen hallows hcomma hinitial =>
    have hall := CallsOpen.cons (initial ++ [⟨r, t, e⟩]) hcalls hbegun hname hopen
      hallows (by simpa [or_imp, forall_and] using ⟨hcomma, ht⟩)
      (by simpa [or_imp, forall_and] using ⟨hinitial, hr⟩)
    simpa [LeadingArgument.tokens] using hall

theorem CallsOpen.closeCall {call : OpenCall} {outer r : List Token} {value : Expr}
    (h : CallsOpen limit (call :: calls) outer) (ht : t.kind = .operator .closeParen)
    (hr : Derives limit (calls.length + 1) .assign r e)
    (hvalue : Named call.name (e :: call.arguments).reverse value) :
    Traced limit ⟨⟨some value, call.waiting⟩, calls, .none⟩ (outer ++ (r ++ [t])) := by
  cases h with
  | @cons _ outer s c ws name o initial hcalls hbegun hname hopen hallows hcomma hinitial =>
    have hatom : Derives limit calls.length .atom
        (name :: o :: (initial.flatMap LeadingArgument.tokens ++ (r ++ [t]))) value :=
      .call hname hopen ht hallows hcomma hinitial hr (by simpa using hvalue)
    simpa using Traced.operand hcalls hbegun hatom

theorem Traced.places (h : Traced limit ⟨level, calls, .none⟩ consumed)
    (hplaces : ReaderState.Places mode level calls t (.onward s')) (ht : t.HasSign)
    (hfits : s'.Fits) : Traced limit s' (consumed ++ [t]) := by
  cases hplaces with
  | separator hsep hfinish =>
    obtain ⟨outer, r, rfl, hcalls, hr⟩ := h.finish hfinish
    have hstart := Traced.start (hcalls.separator hsep hr) .nil
    rw [List.append_nil] at hstart
    rw [List.append_assoc]
    exact hstart
  | closeCall hclose hfinish hvalue =>
    obtain ⟨outer, r, rfl, hcalls, hr⟩ := h.finish hfinish
    simpa using hcalls.closeCall hclose hr hvalue
  | push hop hpush =>
    obtain ⟨hmem, hcall⟩ := ht _ hop
    exact h.push hop (Level.pushes_of_push hmem hcall hpush) hfits.1
  | number hnumber =>
    cases h with
    | start hcalls hbegun => simpa using Traced.operand hcalls hbegun (.number hnumber)
  | name hname =>
    cases h with
    | start hcalls hbegun => simpa using Traced.named hcalls hbegun hname

theorem Traced.step (h : Traced mode.limit s consumed)
    (hmoves : ReaderState.Moves mode s t (.onward s')) (ht : t.HasSign) (hfits : s'.Fits) :
    Traced mode.limit s' (consumed ++ [t]) := by
  cases hmoves with
  | openList hopen =>
    cases h with
    | named hcalls hbegun hname => simpa using Traced.opened hcalls hbegun hname hopen
  | bareCall hclose hnamed =>
    cases h with
    | opened hcalls hbegun hname hopen =>
      simpa using Traced.operand hcalls hbegun (.bareCall hname hopen hclose hnamed)
  | place hresolves hplaces => exact (h.resolves hresolves).places hplaces ht hfits

theorem Traced.sentence {failure : Option LexicalError} {rest : TokenQueue} {ts : List Token}
    (h : Traced mode.limit s consumed) (hts : ∀ t ∈ ts, t.HasSign)
    (hread : s.read mode failure ts = (.ok e, rest)) :
    ∃ r ending, consumed ++ ts = r ++ ending ∧ Derives mode.limit 0 .assign r e ∧
      StatementEnd mode.nested ⟨ending, failure⟩ rest := by
  induction ts generalizing s consumed with
  | nil =>
    cases failure with
    | some err => cases hread
    | none =>
      have hend : s.atEnd = .ok e := congrArg Prod.fst hread
      have hrest : rest = ⟨[], none⟩ := (congrArg Prod.snd hread).symm
      obtain ⟨l, hresolves, hfinish⟩ := ReaderState.resolves_of_atEnd mode.limit hend
      obtain ⟨outer, r, rfl, hcalls, hr⟩ := (h.resolves hresolves).finish hfinish
      cases hcalls
      subst hrest
      exact ⟨r, [], by simp, hr, .line⟩
  | cons t ts ih =>
    have ht := hts t (by simp)
    have hrest : ∀ u ∈ ts, u.HasSign := fun u hu => hts u (by simp [hu])
    rcases ReaderState.moves_of_step mode s t with hmoves | ⟨err, taken, hstep⟩
    · cases hstep : ReaderState.step mode s t with
      | onward s' =>
        rw [ReaderState.read_of_onward hstep] at hread
        rw [hstep] at hmoves
        have htraced := h.step hmoves ht (ReaderState.fits_of_read hrest hread)
        simpa using ih htraced hrest hread
      | stop result taken =>
        simp only [ReaderState.read, hstep, Prod.mk.injEq] at hread
        obtain ⟨rfl, rfl⟩ := hread
        rw [hstep] at hmoves
        cases hmoves with
        | place hresolves hplaces =>
          cases hplaces with
          | endSeparator hsep hfinish =>
            obtain ⟨outer, r, rfl, hcalls, hr⟩ := (h.resolves hresolves).finish hfinish
            cases hcalls
            exact ⟨r, t :: ts, by simp, hr, .separator hsep⟩
          | endParen hnested hclose hfinish =>
            obtain ⟨outer, r, rfl, hcalls, hr⟩ := (h.resolves hresolves).finish hfinish
            cases hcalls
            exact ⟨r, t :: ts, by simp, hr, .closeParen hnested hclose⟩
    · simp [ReaderState.read, hstep] at hread

end Tracing

/-- A statement is read from a queue of tokens, each of which some line has, if and only if
the tokens begin with a sentence of the grammar followed by an end of a statement, and then as
the expression that this sentence means. -/
theorem statement_eq_ok_iff (mode : ReaderMode) (q rest : TokenQueue) (e : Expr)
    (hq : ∀ t ∈ q.tokens, ∃ source, t ∈ (Scan.line source).tokens) :
    q.statement mode = (.ok e, rest) ↔
      ∃ s ending, q.tokens = s ++ ending ∧ Derives mode.limit 0 .assign s e ∧
        StatementEnd mode.nested ⟨ending, q.failure⟩ rest := by
  constructor
  · intro h
    have hsign : ∀ t ∈ q.tokens, t.HasSign := by
      intro t ht
      obtain ⟨source, hsource⟩ := hq t ht
      exact Scan.hasSign_of_mem hsource
    have hstart : Traced mode.limit ReaderState.start [] := .start .nil .nil
    exact hstart.sentence hsign h
  · rintro ⟨s, ending, htokens, hderives, hend⟩
    exact hderives.statement htokens hend

theorem statement_eq_ok_iff_signs :
    (∀ t ∈ (TokenQueue.ofLine "-a^-b,c").tokens, ∃ source, t ∈ (Scan.line source).tokens) ∧
      ∃ s ending, (TokenQueue.ofLine "-a^-b,c").tokens = s ++ ending ∧
        Derives none 0 .assign s (.operator .negate
          [.operator .power [.call "a" [], .operator .negate [.call "b" []]]]) ∧
        StatementEnd false ⟨ending, none⟩ ⟨[⟨.text, "c", 6, 7⟩], none⟩ := by
  have hq : ∀ t ∈ (TokenQueue.ofLine "-a^-b,c").tokens, ∃ source, t ∈ (Scan.line source).tokens :=
    fun t ht => ⟨_, ht⟩
  exact ⟨hq, (statement_eq_ok_iff ⟨false, none⟩ _ _ _ hq).1 (by rfl)⟩

end Reckon
