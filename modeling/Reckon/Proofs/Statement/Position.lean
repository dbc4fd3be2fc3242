import Reckon.Statement.Line
import Reckon.Proofs.Token.Position
import Reckon.Proofs.Statement.Steps
set_option autoImplicit false

namespace Reckon

def Error.shift (n : Nat) : Error → Error
  | .lexical e => .lexical (e.shift n)
  | .misplaced what position => .misplaced what (position.map (· + n))
  | e => e

def TokenQueue.shift (n : Nat) (q : TokenQueue) : TokenQueue :=
  ⟨q.tokens.map (Token.shift n), q.failure.map (LexicalError.shift n)⟩

def Error.relocate (f : Nat → Nat) : Error → Error
  | .lexical e => .lexical (e.relocate f)
  | .misplaced what position => .misplaced what (position.map f)
  | e => e

def TokenQueue.relocate (f : Nat → Nat) (q : TokenQueue) : TokenQueue :=
  ⟨q.tokens.map (Token.relocate f), q.failure.map (LexicalError.relocate f)⟩

theorem Error.shift_eq_relocate (n : Nat) : Error.shift n = Error.relocate (· + n) := by
  funext e
  cases e with
  | lexical e => simp only [Error.shift, Error.relocate, LexicalError.shift_eq_relocate]
  | _ => rfl

theorem TokenQueue.shift_eq_relocate (n : Nat) (q : TokenQueue) :
    q.shift n = q.relocate (· + n) := by
  simp only [TokenQueue.shift, TokenQueue.relocate, LexicalError.shift_eq_relocate]
  rfl

theorem Expr.ofName_mapError (f : Nat → Nat) (name : String) (operands : List Expr) :
    (Expr.ofName name operands).mapError (Error.relocate f) = Expr.ofName name operands := by
  unfold Expr.ofName
  split
  · rfl
  · split <;> rfl

namespace ReaderStep

def relocate (f : Nat → Nat) : ReaderStep → ReaderStep
  | .onward s => .onward s
  | .stop result taken => .stop (result.mapError (Error.relocate f)) taken

end ReaderStep

namespace ReaderState

variable {mode : ReaderMode}

theorem relocate_closeCall (f : Nat → Nat) (call : OpenCall) (arguments : List Expr)
    (calls : List OpenCall) :
    (closeCall call arguments calls).relocate f = closeCall call arguments calls := by
  have hname := Expr.ofName_mapError f call.name arguments
  unfold closeCall
  cases h : Expr.ofName call.name arguments with
  | ok e => rfl
  | error e =>
    rw [h] at hname
    simpa [ReaderStep.relocate] using hname

theorem relocate_comma (f : Nat → Nat) (s : ReaderState) : s.comma.relocate f = s.comma := by
  unfold comma
  split
  · rfl
  · split <;> rfl

theorem relocate_closeList (f : Nat → Nat) (s : ReaderState) :
    s.closeList.relocate f = s.closeList := by
  unfold closeList
  split
  · rfl
  · split
    · rfl
    · exact relocate_closeCall f _ _ _

theorem place_relocate (f : Nat → Nat) (s : ReaderState) (t : Token) :
    place mode s (t.relocate f) = (place mode s t).relocate f := by
  by_cases hcomma : t.isComma = true
  · simp only [place, Token.isComma_relocate, hcomma, if_true, relocate_comma]
  · by_cases hlist : (t.isOperator .closeParen && (mode.nested || !s.calls.isEmpty) &&
        !s.level.inGroup) = true
    · simp only [place, Token.isComma_relocate, Token.isOperator_relocate, hcomma, hlist, if_true,
        Bool.false_eq_true, if_false, relocate_closeList]
    · have hkind : (t.relocate f).kind = t.kind := rfl
      simp only [place, Token.isComma_relocate, Token.isOperator_relocate, hcomma, hlist,
        Bool.false_eq_true, if_false, hkind]
      cases t.kind with
      | operator op => cases hpush : s.level.push op <;> simp only [hpush] <;> rfl
      | number value => cases hoperand : s.level.operand.isSome <;> rfl
      | text => cases hoperand : s.level.operand.isSome <;> rfl

theorem step_relocate (f : Nat → Nat) (s : ReaderState) (t : Token) :
    step mode s (t.relocate f) = (step mode s t).relocate f := by
  obtain ⟨l, calls, lookahead⟩ := s
  cases lookahead with
  | none => exact place_relocate f _ t
  | named name =>
    have hname := Expr.ofName_mapError f name []
    by_cases hopen : t.isOperator .openParen = true
    · simp only [step, Token.isOperator_relocate, hopen, if_true]
      rfl
    · simp only [step, Token.isOperator_relocate, hopen, Bool.false_eq_true, if_false]
      cases h : Expr.ofName name [] with
      | ok e => exact place_relocate f _ t
      | error e =>
        rw [h] at hname
        exact congrArg (ReaderStep.stop · false) hname.symm
  | opened name =>
    by_cases hclose : t.isOperator .closeParen = true
    · simp only [step, Token.isOperator_relocate, hclose, if_true, relocate_closeCall]
    · by_cases hallows : mode.limit.allows (calls.length + 1) = true
      · simp only [step, Token.isOperator_relocate, hclose, hallows, if_true, Bool.false_eq_true,
          if_false, place_relocate]
      · simp only [step, Token.isOperator_relocate, hclose, hallows, Bool.false_eq_true, if_false]
        rfl

theorem finished_mapError (f : Nat → Nat) (calls : List OpenCall) (l : Level) :
    (finished calls l).mapError (Error.relocate f) = finished calls l := by
  unfold finished
  split
  · rfl
  · split <;> rfl

theorem atEnd_mapError (f : Nat → Nat) (s : ReaderState) :
    s.atEnd.mapError (Error.relocate f) = s.atEnd := by
  obtain ⟨l, calls, lookahead⟩ := s
  cases lookahead with
  | none => exact finished_mapError f calls l
  | named name =>
    have hname := Expr.ofName_mapError f name []
    cases hof : Expr.ofName name [] with
    | ok e =>
      rw [atEnd_named hof]
      exact finished_mapError f calls _
    | error e =>
      rw [hof] at hname
      rw [atEnd_named_error hof]
      exact hname
  | opened name => rfl

theorem read_relocate (f : Nat → Nat) (failure : Option LexicalError) (s : ReaderState)
    (ts : List Token) :
    read mode (failure.map (LexicalError.relocate f)) s (ts.map (Token.relocate f)) =
      ((read mode failure s ts).1.mapError (Error.relocate f),
        (read mode failure s ts).2.relocate f) := by
  induction ts generalizing s with
  | nil =>
    cases failure with
    | some e => rfl
    | none => exact Prod.ext (atEnd_mapError f s).symm rfl
  | cons t ts ih =>
    simp only [List.map_cons, read, step_relocate]
    cases step mode s t with
    | onward s' => exact ih s'
    | stop result taken => cases taken <;> rfl

end ReaderState

theorem TokenQueue.statement_relocate (f : Nat → Nat) (mode : ReaderMode) (q : TokenQueue) :
    (q.relocate f).statement mode =
      ((q.statement mode).1.mapError (Error.relocate f), (q.statement mode).2.relocate f) :=
  ReaderState.read_relocate f q.failure ReaderState.start q.tokens

namespace Reading

def shift (n : Nat) (r : Reading) : Reading := ⟨r.statements, r.failure.map (Error.shift n)⟩

def relocate (f : Nat → Nat) (r : Reading) : Reading :=
  ⟨r.statements, r.failure.map (Error.relocate f)⟩

theorem upTo_relocate (limit : Limit) (f : Nat → Nat) (count : Nat) (q : TokenQueue) :
    upTo limit count (q.relocate f) = (upTo limit count q).relocate f := by
  induction count generalizing q with
  | zero => rfl
  | succ count ih =>
    have hempty : (q.relocate f).tokens.isEmpty = q.tokens.isEmpty := by
      simp [TokenQueue.relocate]
    simp only [upTo, hempty, TokenQueue.statement_relocate]
    split
    · cases h : q.failure <;> simp [TokenQueue.relocate, relocate, h, Error.relocate]
    · rcases h : q.statement ⟨false, limit⟩ with ⟨e | e, rest⟩
      · rfl
      · change Reading.mk (e :: (upTo limit count (rest.relocate f)).statements)
          (upTo limit count (rest.relocate f)).failure = _
        rw [ih]
        rfl

theorem ofQueue_relocate (limit : Limit) (f : Nat → Nat) (q : TokenQueue) :
    ofQueue limit (q.relocate f) = (ofQueue limit q).relocate f := by
  have hlength : (q.relocate f).tokens.length = q.tokens.length := by simp [TokenQueue.relocate]
  rw [ofQueue, ofQueue, hlength]
  exact upTo_relocate limit f _ q

theorem ofQueue_shift (limit : Limit) (n : Nat) (q : TokenQueue) :
    ofQueue limit (q.shift n) = (ofQueue limit q).shift n := by
  have hmoved := ofQueue_relocate limit (· + n) q
  simp only [relocate, ← Error.shift_eq_relocate] at hmoved
  rw [TokenQueue.shift_eq_relocate, hmoved]
  rfl

end Reading

end Reckon
