import Reckon.Proofs.Statement.Precedence
set_option autoImplicit false

namespace Reckon

section Settling

variable {op : Operator} {e : Expr} {ws : List Waiting}

theorem settle_of_head (h : ∀ w ∈ ws.head?, w.op.takesFirst op = false) (e : Expr) :
    settle op e ws = .ok ⟨e, ws, false⟩ := by
  cases ws with
  | nil => rfl
  | cons w ws => simp [settle, h w (by simp)]

theorem settle_join {j : Join} {a b : Expr} (hj : j ∈ Join.all) (hop : op.isUnary = false)
    (hlt : op.precedence.level < j.right.rank) (h : Joined j.sign a b e) (ws : List Waiting) :
    settle op b (⟨j.sign, some a⟩ :: ws) = settle op e ws := by
  have htakes : j.sign.takesFirst op = true := by
    simpa [Join.takesFirst_sign hj hop] using hlt
  have hcomplete : Waiting.complete ⟨j.sign, some a⟩ b = .ok e := by
    simp [Waiting.complete, Join.arity_sign j hj, joined_iff.1 h]
  simp [settle, htakes, Join.arity_sign j hj, hcomplete]

theorem settle_signed {p : Operator × Operator} (hp : p ∈ leadingSigns)
    (hlt : op.precedence.level < Category.unary.rank) (e : Expr) (ws : List Waiting) :
    settle op e (⟨p.2, none⟩ :: ws) = settle op (.operator p.2 [e]) ws := by
  have htakes : p.2.takesFirst op = true := by
    simpa [takesFirst_of_leadingSign hp] using hlt
  have hcomplete : Waiting.complete ⟨p.2, none⟩ e = .ok (.operator p.2 [e]) := by
    simp [Waiting.complete, leadingSigns_arity p hp]
  simp [settle, htakes, leadingSigns_arity p hp, hcomplete]

theorem settle_group (e : Expr) (ws : List Waiting) :
    settle .closeParen e (⟨.openParen, none⟩ :: ws) = .ok ⟨e, ws, true⟩ := rfl

end Settling

namespace Level

variable {operand e : Expr} {ws ws' : List Waiting}

theorem push_join {j : Join} (hj : j ∈ Join.all)
    (h : settle j.sign operand ws = .ok ⟨e, ws', false⟩) :
    (Level.mk (some operand) ws).push j.sign = .ok ⟨none, ⟨j.sign, some e⟩ :: ws'⟩ := by
  obtain ⟨hopen, hclose⟩ := Join.sign_ne_parens j hj
  simp [push, h, hopen, hclose]

theorem push_leadingSign {p : Operator × Operator} (hp : p ∈ leadingSigns) (ws : List Waiting) :
    (Level.mk none ws).push p.1 = .ok ⟨none, ⟨p.2, none⟩ :: ws⟩ := by
  obtain ⟨-, -, hopen, hclose, hsign⟩ := leadingSigns_fst p hp
  cases ws <;> simp [push, hsign, hopen, hclose, takesFirst_leadingSign hp]

theorem push_openParen (ws : List Waiting) :
    (Level.mk none ws).push .openParen = .ok ⟨none, ⟨.openParen, none⟩ :: ws⟩ := by
  cases ws <;> simp [push]

theorem push_closeParen (h : settle .closeParen operand ws = .ok ⟨e, ws', true⟩) :
    (Level.mk (some operand) ws).push .closeParen = .ok ⟨some e, ws'⟩ := by
  simp [push, h]

theorem finish_of_settle (h : settle .terminator operand ws = .ok ⟨e, [], false⟩) :
    (Level.mk (some operand) ws).finish = .ok e := by
  simp [finish, h]

theorem inGroup_eq_false (h : ∀ w ∈ ws, w.op ≠ .openParen) (operand : Option Expr) :
    (Level.mk operand ws).inGroup = false := by
  simpa [inGroup] using h

section Inversion

variable {op : Operator} {l : Level}

theorem push_none_eq_ok (h : (Level.mk none ws).push op = .ok l) :
    l = ⟨none, ⟨if op = .subtract then .negate else op, none⟩ :: ws⟩ ∧ op ≠ .closeParen ∧
      ((if op = .subtract then Operator.negate else op) ≠ .openParen →
        ∀ w ∈ ws.head?, w.op.takesFirst (if op = .subtract then .negate else op) = false) := by
  have hclose : (if op = .subtract then Operator.negate else op) = .closeParen ↔
      op = .closeParen := by
    by_cases hsub : op = .subtract <;> simp [hsub]
  simp only [push] at h
  generalize (if op = .subtract then Operator.negate else op) = sign at h hclose ⊢
  simp only [hclose] at h
  cases ws with
  | nil =>
    dsimp only at h
    split at h
    · cases h
    · rename_i hne
      cases h
      exact ⟨rfl, hne, by simp⟩
  | cons w ws =>
    dsimp only at h
    split at h
    · cases h
    · rename_i htakes
      split at h
      · cases h
      · rename_i hne
        cases h
        exact ⟨rfl, hne, by simpa using htakes⟩

theorem push_some_eq_ok (h : (Level.mk (some e) ws).push op = .ok l) :
    op = .openParen ∧ l = ⟨none, ⟨op, some e⟩ :: ws⟩ ∨
      op ≠ .openParen ∧ ∃ st, settle op e ws = .ok st ∧
        (st.closed = true ∧ l = ⟨some st.operand, st.waiting⟩ ∨
          st.closed = false ∧ op ≠ .closeParen ∧
            l = ⟨none, ⟨op, some st.operand⟩ :: st.waiting⟩) := by
  simp only [push] at h
  split at h
  · rename_i hopen
    cases h
    exact .inl ⟨hopen, rfl⟩
  · rename_i hopen
    refine .inr ⟨hopen, ?_⟩
    split at h
    · cases h
    · rename_i st hst
      refine ⟨st, hst, ?_⟩
      split at h
      · rename_i hclosed
        cases h
        exact .inl ⟨hclosed, rfl⟩
      · rename_i hclosed
        split at h
        · cases h
        · rename_i hclose
          cases h
          exact .inr ⟨by simpa using hclosed, hclose, rfl⟩

end Inversion

end Level

namespace Token

variable {t : Token} {op : Operator}

theorem isOperator_iff : t.isOperator op = true ↔ t.kind = .operator op := by simp [isOperator]

theorem isComma_iff : t.isComma = true ↔ t.IsSeparator := by simp [isComma, IsSeparator]

theorem IsName.isComma (h : t.IsName) : t.isComma = false := by simp [Token.isComma, h.2]

end Token

namespace ReaderState

variable {mode : ReaderMode} {failure : Option LexicalError} {s s' : ReaderState} {t : Token}
  {ts : List Token} {calls : List OpenCall} {ws : List Waiting} {l : Level} {name : String}
  {e : Expr}

theorem read_of_onward (h : s.step mode t = .onward s') :
    read mode failure s (t :: ts) = read mode failure s' ts := by simp [read, h]

theorem step_push {op : Operator} {level : Level} (ht : t.kind = .operator op)
    (hgroup : op = .closeParen → l.inGroup = true) (h : l.push op = .ok level) :
    step mode ⟨l, calls, .none⟩ t = .onward ⟨level, calls, .none⟩ := by
  have hcomma : t.isComma = false := by simp [Token.isComma, ht]
  have hlist : (t.isOperator .closeParen && (mode.nested || !calls.isEmpty) && !l.inGroup) =
      false := by
    by_cases hop : op = .closeParen
    · simp [hgroup hop]
    · simp [Token.isOperator, ht, hop]
  simp only [step, place, hcomma, hlist, ht, h, Bool.false_eq_true, if_false]

theorem step_number {value : Number} (ht : t.kind = .number value) :
    step mode ⟨⟨none, ws⟩, calls, .none⟩ t =
      .onward ⟨⟨some (.constant value), ws⟩, calls, .none⟩ := by
  simp [step, place, Token.isComma, Token.isOperator, ht]

theorem step_name (ht : t.IsName) :
    step mode ⟨⟨none, ws⟩, calls, .none⟩ t = .onward ⟨⟨none, ws⟩, calls, .named t.text⟩ := by
  simp [step, place, ht.isComma, Token.isOperator, ht.1]

theorem step_openParen (ht : t.kind = .operator .openParen) :
    step mode ⟨l, calls, .named name⟩ t = .onward ⟨l, calls, .opened name⟩ := by
  simp [step, Token.isOperator, ht]

theorem step_bareCall (ht : t.kind = .operator .closeParen) (hname : Named name [] e) :
    step mode ⟨⟨none, ws⟩, calls, .opened name⟩ t = .onward ⟨⟨some e, ws⟩, calls, .none⟩ := by
  simp [step, Token.isOperator, ht, closeCall, named_iff.1 hname]

def finished (calls : List OpenCall) (l : Level) : Except Error Expr :=
  match l.finish with
  | .error m => .error (.misplaced m none)
  | .ok e => if calls.isEmpty then .ok e else .error (.misplaced .endOfInput none)

theorem atEnd_none : atEnd ⟨l, calls, .none⟩ = finished calls l := rfl

theorem atEnd_named (h : Expr.ofName name [] = .ok e) :
    atEnd ⟨l, calls, .named name⟩ = finished calls ⟨some e, l.waiting⟩ := by
  simp only [atEnd, h]
  rfl

theorem atEnd_named_error {err : Error} (h : Expr.ofName name [] = .error err) :
    atEnd ⟨l, calls, .named name⟩ = .error err := by
  simp only [atEnd, h]

theorem finished_eq_ok (h : finished calls l = .ok e) : calls = [] ∧ l.finish = .ok e := by
  unfold finished at h
  split at h
  · cases h
  · rename_i e' hfinish
    split at h
    · rename_i hempty
      cases h
      exact ⟨List.isEmpty_iff.1 hempty, hfinish⟩
    · cases h

theorem read_named (hname : Named name [] e)
    (hts : ∀ t ∈ ts.head?, t.isOperator .openParen = false) :
    read mode failure ⟨⟨none, ws⟩, calls, .named name⟩ ts =
      read mode failure ⟨⟨some e, ws⟩, calls, .none⟩ ts := by
  have hof := named_iff.1 hname
  cases ts with
  | nil => cases failure <;> simp [read, atEnd, hof]
  | cons t ts =>
    have ht : t.isOperator .openParen = false := hts t (by simp)
    simp [read, step, ht, hof]

theorem read_opened (hallows : mode.limit.allows (calls.length + 1) = true)
    (ht : t.isOperator .closeParen = false) :
    read mode failure ⟨⟨none, ws⟩, calls, .opened name⟩ (t :: ts) =
      read mode failure ⟨.empty, ⟨name, ws, []⟩ :: calls, .none⟩ (t :: ts) := by
  simp [read, step, ht, hallows]

theorem step_separator {call : OpenCall} (ht : t.IsSeparator) (h : l.finish = .ok e) :
    step mode ⟨l, call :: calls, .none⟩ t =
      .onward ⟨.empty, { call with arguments := e :: call.arguments } :: calls, .none⟩ := by
  simp [step, place, Token.isComma_iff.2 ht, comma, h]

theorem step_closeCall {call : OpenCall} {value : Expr} (ht : t.kind = .operator .closeParen)
    (hgroup : l.inGroup = false) (h : l.finish = .ok e)
    (hname : Named call.name (e :: call.arguments).reverse value) :
    step mode ⟨l, call :: calls, .none⟩ t = .onward ⟨⟨some value, call.waiting⟩, calls, .none⟩ := by
  have hcomma : t.isComma = false := by simp [Token.isComma, ht]
  have hclose : t.isOperator .closeParen = true := Token.isOperator_iff.2 ht
  have hof := named_iff.1 hname
  simp only [step, place, hcomma, hclose, hgroup, closeList, h, closeCall, hof, List.isEmpty_cons,
    Bool.not_false, Bool.or_true, Bool.and_self, Bool.false_eq_true, if_false, if_true]

end ReaderState

end Reckon
