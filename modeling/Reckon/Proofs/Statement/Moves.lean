import Reckon.Proofs.Statement.Steps
set_option autoImplicit false

namespace Reckon

namespace ReaderState

/-- What a name just read becomes when the next token is no parenthesis of its own. -/
inductive Resolves (limit : Limit) : ReaderState → ReaderState → Prop where
  | none {l : Level} {calls : List OpenCall} : Resolves limit ⟨l, calls, .none⟩ ⟨l, calls, .none⟩
  | named {l : Level} {calls : List OpenCall} {name : String} {e : Expr} :
      Named name [] e → Resolves limit ⟨l, calls, .named name⟩ ⟨⟨some e, l.waiting⟩, calls, .none⟩
  | opened {l : Level} {calls : List OpenCall} {name : String} :
      limit.allows (calls.length + 1) = true →
      Resolves limit ⟨l, calls, .opened name⟩ ⟨.empty, ⟨name, l.waiting, []⟩ :: calls, .none⟩

inductive Places (mode : ReaderMode) : Level → List OpenCall → Token → ReaderStep → Prop where
  | separator {l : Level} {call : OpenCall} {calls : List OpenCall} {t : Token} {e : Expr} :
      t.IsSeparator → l.finish = .ok e →
      Places mode l (call :: calls) t
        (.onward ⟨.empty, { call with arguments := e :: call.arguments } :: calls, .none⟩)
  | closeCall {l : Level} {call : OpenCall} {calls : List OpenCall} {t : Token} {e value : Expr} :
      t.kind = .operator .closeParen → l.finish = .ok e →
      Named call.name (e :: call.arguments).reverse value →
      Places mode l (call :: calls) t (.onward ⟨⟨some value, call.waiting⟩, calls, .none⟩)
  | push {l l' : Level} {calls : List OpenCall} {t : Token} {op : Operator} :
      t.kind = .operator op → l.push op = .ok l' →
      Places mode l calls t (.onward ⟨l', calls, .none⟩)
  | number {ws : List Waiting} {calls : List OpenCall} {t : Token} {value : Number} :
      t.kind = .number value →
      Places mode ⟨none, ws⟩ calls t (.onward ⟨⟨some (.constant value), ws⟩, calls, .none⟩)
  | name {ws : List Waiting} {calls : List OpenCall} {t : Token} :
      t.IsName → Places mode ⟨none, ws⟩ calls t (.onward ⟨⟨none, ws⟩, calls, .named t.text⟩)
  | endSeparator {l : Level} {t : Token} {e : Expr} :
      t.IsSeparator → l.finish = .ok e → Places mode l [] t (.stop (.ok e) true)
  | endParen {l : Level} {t : Token} {e : Expr} :
      mode.nested = true → t.kind = .operator .closeParen → l.finish = .ok e →
      Places mode l [] t (.stop (.ok e) false)

variable {mode : ReaderMode} {limit : Limit} {s s' : ReaderState} {t : Token} {l : Level}
  {calls : List OpenCall}

theorem places_of_place (mode : ReaderMode) (l : Level) (calls : List OpenCall) (t : Token) :
    Places mode l calls t (place mode ⟨l, calls, .none⟩ t) ∨
      ∃ err taken, place mode ⟨l, calls, .none⟩ t = .stop (.error err) taken := by
  unfold place
  split
  · rename_i hcomma
    have hsep := Token.isComma_iff.1 hcomma
    cases hfinish : l.finish with
    | error m => exact .inr ⟨.misplaced m none, true, by simp [comma, hfinish]⟩
    | ok e =>
      cases calls with
      | nil =>
        left
        simpa [comma, hfinish] using Places.endSeparator hsep hfinish
      | cons call calls =>
        left
        simpa [comma, hfinish] using Places.separator hsep hfinish
  · rename_i hcomma
    split
    · rename_i hlist
      simp only [Bool.and_eq_true, Bool.or_eq_true] at hlist
      have hclose : t.kind = .operator .closeParen := Token.isOperator_iff.1 hlist.1.1
      cases hfinish : l.finish with
      | error m => exact .inr ⟨.misplaced m none, false, by simp [closeList, hfinish]⟩
      | ok e =>
        cases calls with
        | nil =>
          have hnested : mode.nested = true := by simpa using hlist.1.2
          left
          simpa [closeList, hfinish] using Places.endParen hnested hclose hfinish
        | cons call calls =>
          simp only [closeList, hfinish, ReaderState.closeCall]
          cases hof : Expr.ofName call.name (e :: call.arguments).reverse with
          | error err => exact .inr ⟨_, _, rfl⟩
          | ok value => exact .inl (.closeCall hclose hfinish (named_iff.2 hof))
    · split
      · rename_i op hop
        split
        · rename_i level hpush
          exact .inl (.push hop hpush)
        · exact .inr ⟨_, _, rfl⟩
      · rename_i value hvalue
        obtain ⟨operand, ws⟩ := l
        cases operand with
        | none => exact .inl (.number hvalue)
        | some operand => exact .inr ⟨_, _, rfl⟩
      · rename_i htext
        obtain ⟨operand, ws⟩ := l
        cases operand with
        | none =>
          have hname : t.IsName := ⟨htext, fun h => hcomma (Token.isComma_iff.2 ⟨htext, h⟩)⟩
          exact .inl (.name hname)
        | some operand => exact .inr ⟨_, _, rfl⟩

/-- A step that is no error: a parenthesis of the name just read, or a token in its place. -/
inductive Moves (mode : ReaderMode) : ReaderState → Token → ReaderStep → Prop where
  | openList {l : Level} {calls : List OpenCall} {name : String} {t : Token} :
      t.kind = .operator .openParen →
      Moves mode ⟨l, calls, .named name⟩ t (.onward ⟨l, calls, .opened name⟩)
  | bareCall {l : Level} {calls : List OpenCall} {name : String} {t : Token} {e : Expr} :
      t.kind = .operator .closeParen → Named name [] e →
      Moves mode ⟨l, calls, .opened name⟩ t (.onward ⟨⟨some e, l.waiting⟩, calls, .none⟩)
  | place {s : ReaderState} {l : Level} {calls : List OpenCall} {t : Token} {r : ReaderStep} :
      Resolves mode.limit s ⟨l, calls, .none⟩ → Places mode l calls t r → Moves mode s t r

theorem moves_of_step (mode : ReaderMode) (s : ReaderState) (t : Token) :
    Moves mode s t (step mode s t) ∨ ∃ err taken, step mode s t = .stop (.error err) taken := by
  obtain ⟨l, calls, lookahead⟩ := s
  have hplace : ∀ {l' calls'}, Resolves mode.limit ⟨l, calls, lookahead⟩ ⟨l', calls', .none⟩ →
      step mode ⟨l, calls, lookahead⟩ t = ReaderState.place mode ⟨l', calls', .none⟩ t →
      Moves mode ⟨l, calls, lookahead⟩ t (step mode ⟨l, calls, lookahead⟩ t) ∨
        ∃ err taken, step mode ⟨l, calls, lookahead⟩ t = .stop (.error err) taken := by
    intro l' calls' hresolves heq
    rw [heq]
    rcases places_of_place mode l' calls' t with h | h
    · exact .inl (.place hresolves h)
    · exact .inr h
  cases lookahead with
  | none => exact hplace .none rfl
  | named name =>
    by_cases hopen : t.isOperator .openParen = true
    · left
      simpa [step, hopen] using Moves.openList (Token.isOperator_iff.1 hopen)
    · cases hof : Expr.ofName name [] with
      | error err => exact .inr ⟨err, false, by simp [step, hopen, hof]⟩
      | ok e => exact hplace (.named (named_iff.2 hof)) (by simp [step, hopen, hof])
  | opened name =>
    by_cases hclose : t.isOperator .closeParen = true
    · cases hof : Expr.ofName name [] with
      | error err => exact .inr ⟨err, true, by simp [step, hclose, ReaderState.closeCall, hof]⟩
      | ok e =>
        have hbare : Moves mode ⟨l, calls, .opened name⟩ t
            (.onward ⟨⟨some e, l.waiting⟩, calls, .none⟩) :=
          .bareCall (Token.isOperator_iff.1 hclose) (named_iff.2 hof)
        left
        simpa [step, hclose, ReaderState.closeCall, hof] using hbare
    · by_cases hallows : mode.limit.allows (calls.length + 1) = true
      · exact hplace (.opened hallows) (by simp [step, hclose, hallows])
      · exact .inr ⟨.excessiveRecursion, false, by simp [step, hclose, hallows]⟩

theorem resolves_of_atEnd {e : Expr} (limit : Limit) (h : s.atEnd = .ok e) :
    ∃ l, Resolves limit s ⟨l, [], .none⟩ ∧ l.finish = .ok e := by
  obtain ⟨l, calls, lookahead⟩ := s
  cases lookahead with
  | none =>
    rw [atEnd_none] at h
    obtain ⟨rfl, hfinish⟩ := finished_eq_ok h
    exact ⟨l, .none, hfinish⟩
  | named name =>
    cases hof : Expr.ofName name [] with
    | error err =>
      rw [atEnd_named_error hof] at h
      cases h
    | ok value =>
      rw [atEnd_named hof] at h
      obtain ⟨rfl, hfinish⟩ := finished_eq_ok h
      exact ⟨_, .named (named_iff.2 hof), hfinish⟩
  | opened name => cases h

end ReaderState

end Reckon
