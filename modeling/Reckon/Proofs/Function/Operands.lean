import Reckon.Proofs.Function.Evaluation
import Reckon.Proofs.Function.Reference
import Reckon.Proofs.Expr.WellFormed
set_option autoImplicit false

namespace Reckon

namespace Operator

def outcome (op : Operator) (operand : Nat → Except Error Number) : Except Error Number :=
  match op.meaning with
  | .constant value => .ok value
  | .unary apply =>
    match operand 0 with
    | .ok x => .ok (apply x)
    | .error err => .error err
  | .binary apply =>
    match operand 0 with
    | .ok x =>
      match operand 1 with
      | .ok y => .ok (apply x y)
      | .error err => .error err
    | .error err => .error err
  | .choice choose =>
    match operand 0 with
    | .ok x => if choose x = 0 then .ok x else operand (choose x)
    | .error err => .error err
  | .structural => .error (.invalidUse op.name)

/-- The operands that are evaluated for a node of the operator. -/
inductive Asks (op : Operator) (operand : Nat → Except Error Number) : Nat → Prop where
  | first : op.meaning.NeedsOperand → Asks op operand 0
  | second {apply : Number → Number → Number} {x : Number} :
      op.meaning = .binary apply → operand 0 = .ok x → Asks op operand 1
  | chosen {choose : Number → Nat} {x : Number} :
      op.meaning = .choice choose → operand 0 = .ok x → choose x ≠ 0 →
      Asks op operand (choose x)

variable {op : Operator} {operand operand' : Nat → Except Error Number} {i : Nat} {err : Error}

theorem Asks.lt_arity (h : op.Asks operand i) : i < op.arity := by
  have hwithin := op.meaning_within
  cases h with
  | first hneeds =>
    cases hmeaning : op.meaning with
    | unary apply =>
      rw [hmeaning] at hwithin
      exact hwithin ▸ Nat.one_pos
    | binary apply =>
      rw [hmeaning] at hwithin
      exact hwithin ▸ Nat.two_pos
    | choice choose =>
      rw [hmeaning] at hwithin
      exact hwithin.1
    | constant value =>
      rw [hmeaning] at hneeds
      cases hneeds
    | structural =>
      rw [hmeaning] at hneeds
      cases hneeds
  | second hmeaning =>
    rw [hmeaning] at hwithin
    exact hwithin ▸ Nat.one_lt_two
  | chosen hmeaning =>
    rw [hmeaning] at hwithin
    exact hwithin.2 _

theorem outcome_of_error (h : op.Asks operand i) (hi : operand i = .error err) :
    op.outcome operand = .error err := by
  cases h with
  | first hneeds =>
    cases hmeaning : op.meaning with
    | unary apply => simp [outcome, hmeaning, hi]
    | binary apply => simp [outcome, hmeaning, hi]
    | choice choose => simp [outcome, hmeaning, hi]
    | constant value =>
      rw [hmeaning] at hneeds
      cases hneeds
    | structural =>
      rw [hmeaning] at hneeds
      cases hneeds
  | second hmeaning hx => simp [outcome, hmeaning, hx, hi]
  | chosen hmeaning hx hchoose => simp [outcome, hmeaning, hx, hchoose, hi]

theorem outcome_error (h : op.outcome operand = .error err) :
    op.meaning = .structural ∨ ∃ i, op.Asks operand i ∧ operand i = .error err := by
  cases hmeaning : op.meaning with
  | constant value => simp [outcome, hmeaning] at h
  | structural => exact .inl rfl
  | unary apply =>
    have hfirst : op.Asks operand 0 := .first (by simp [hmeaning, Meaning.NeedsOperand])
    cases hx : operand 0 with
    | ok x => simp [outcome, hmeaning, hx] at h
    | error other =>
      rw [outcome_of_error hfirst hx] at h
      exact .inr ⟨0, hfirst, hx.trans h⟩
  | binary apply =>
    have hfirst : op.Asks operand 0 := .first (by simp [hmeaning, Meaning.NeedsOperand])
    cases hx : operand 0 with
    | ok x =>
      have hsecond : op.Asks operand 1 := .second hmeaning hx
      cases hy : operand 1 with
      | ok y => simp [outcome, hmeaning, hx, hy] at h
      | error other =>
        rw [outcome_of_error hsecond hy] at h
        exact .inr ⟨1, hsecond, hy.trans h⟩
    | error other =>
      rw [outcome_of_error hfirst hx] at h
      exact .inr ⟨0, hfirst, hx.trans h⟩
  | choice choose =>
    have hfirst : op.Asks operand 0 := .first (by simp [hmeaning, Meaning.NeedsOperand])
    cases hx : operand 0 with
    | ok x =>
      by_cases hchoose : choose x = 0
      · simp [outcome, hmeaning, hx, hchoose] at h
      · refine .inr ⟨choose x, .chosen hmeaning hx hchoose, ?_⟩
        simpa [outcome, hmeaning, hx, hchoose] using h
    | error other =>
      rw [outcome_of_error hfirst hx] at h
      exact .inr ⟨0, hfirst, hx.trans h⟩

/-- Operands that are not asked for do not matter. -/
theorem outcome_congr (h : ∀ i, op.Asks operand i → operand' i = operand i) :
    op.outcome operand' = op.outcome operand := by
  cases hmeaning : op.meaning with
  | constant value => simp [outcome, hmeaning]
  | structural => simp [outcome, hmeaning]
  | unary apply =>
    have hfirst := h 0 (.first (by simp [hmeaning, Meaning.NeedsOperand]))
    simp [outcome, hmeaning, hfirst]
  | binary apply =>
    have hfirst := h 0 (.first (by simp [hmeaning, Meaning.NeedsOperand]))
    cases hx : operand 0 with
    | ok x => simp [outcome, hmeaning, hfirst, hx, h 1 (.second hmeaning hx)]
    | error err => simp [outcome, hmeaning, hfirst, hx]
  | choice choose =>
    have hfirst := h 0 (.first (by simp [hmeaning, Meaning.NeedsOperand]))
    cases hx : operand 0 with
    | ok x =>
      by_cases hchoose : choose x = 0
      · simp [outcome, hmeaning, hfirst, hx, hchoose]
      · simp [outcome, hmeaning, hfirst, hx, hchoose, h _ (.chosen hmeaning hx hchoose)]
    | error err => simp [outcome, hmeaning, hfirst, hx]

end Operator

/-- A scope inside of a function with these bindings, in which so many further calls may be
nested. -/
def FunctionTable.frame (table : FunctionTable) (limit : Limit) (calls : Nat)
    (bindings : Bindings) : Scope :=
  ⟨table, bindings, limit, table.call limit calls⟩

theorem Expr.eval_of_not_allows {scope : Scope} {depth : Nat}
    (h : scope.limit.allows depth = false) (e : Expr) :
    e.eval scope depth = .error .excessiveRecursion := by
  cases e <;> simp [eval, h]

namespace Expr

variable {scope scope' : Scope} {depth : Nat} {op : Operator} {name : String}
  {operands : List Expr} {f : Formula}

theorem eval_operator (scope : Scope) (depth : Nat) (op : Operator) (operands : List Expr) :
    eval scope depth (.operator op operands) =
      if scope.limit.allows depth then
        op.outcome fun i => evalAt scope (depth + 1) op i operands
      else .error .excessiveRecursion := by
  rw [eval]
  rfl

variable {table : FunctionTable} {limit : Limit} {calls : Nat} {bindings : Bindings}

theorem allows_of_eval_error {e : Expr} {err : Error}
    (h : eval (table.frame limit calls bindings) depth e = .error err) :
    err = .excessiveRecursion ∨ limit.allows depth = true := by
  cases hallows : limit.allows depth with
  | true => exact .inr rfl
  | false =>
    rw [eval_of_not_allows hallows] at h
    exact .inl (Except.error.inj h).symm

theorem allows_of_eval_ok {e : Expr} {x : Number}
    (h : eval (table.frame limit calls bindings) depth e = .ok x) : limit.allows depth = true := by
  cases hallows : limit.allows depth with
  | true => rfl
  | false =>
    rw [eval_of_not_allows hallows] at h
    cases h

theorem eval_frame_operator (hallows : limit.allows depth = true) (op : Operator)
    (operands : List Expr) :
    eval (table.frame limit calls bindings) depth (.operator op operands) =
      op.outcome fun i => evalAt (table.frame limit calls bindings) (depth + 1) op i operands :=
  (eval_operator _ depth op operands).trans (if_pos hallows)

theorem eval_frame_call (hallows : limit.allows depth = true)
    (hcalls : table.Calls bindings name operands f) :
    eval (table.frame limit calls bindings) depth (.call name operands) =
      match evalAll (table.frame limit calls bindings) (depth + 2) operands with
      | .ok values => table.call limit calls f values (depth + 1)
      | .error err => .error err := by
  cases hvalues : evalAll (table.frame limit calls bindings) (depth + 2) operands with
  | ok values =>
    rw [FunctionTable.frame] at hvalues
    simp only [eval, FunctionTable.frame, hallows, hcalls.unbound, hcalls.found, hcalls.arity,
      if_true, hvalues]
  | error err =>
    rw [FunctionTable.frame] at hvalues
    simp only [eval, FunctionTable.frame, hallows, hcalls.unbound, hcalls.found, hcalls.arity,
      if_true, hvalues]

theorem length_of_evalAll {values : List Number}
    (h : evalAll scope depth operands = .ok values) : values.length = operands.length := by
  induction operands generalizing values with
  | nil =>
    cases h
    rfl
  | cons e es ih =>
    simp only [evalAll] at h
    split at h
    · split at h
      · rename_i xs hxs
        cases h
        simp [ih hxs]
      · cases h
    · cases h

end Expr

end Reckon
