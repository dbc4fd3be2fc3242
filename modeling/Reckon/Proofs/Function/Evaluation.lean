import Reckon.Function.Evaluation
import Reckon.Proofs.Expr.WellFormed
set_option autoImplicit false

namespace Reckon.Expr

@[elab_as_elim]
theorem induction_operands {motive : Expr → Prop} (constant : ∀ value, motive (.constant value))
    (operator : ∀ op operands, (∀ e ∈ operands, motive e) → motive (.operator op operands))
    (call : ∀ name operands, (∀ e ∈ operands, motive e) → motive (.call name operands)) :
    ∀ e, motive e
  | .constant value => constant value
  | .operator op operands =>
    operator op operands fun e _ => induction_operands constant operator call e
  | .call name operands => call name operands fun e _ => induction_operands constant operator call e

variable {scope : Scope} {depth : Nat} {op : Operator} {operands : List Expr}

theorem evalAt_eq (i : Nat) (operands : List Expr) :
    evalAt scope depth op i operands =
      match operands[i]? with
      | some e => eval scope depth e
      | none => .error (.malformedNode op.name) := by
  induction operands generalizing i with
  | nil => simp [evalAt]
  | cons e es ih =>
    cases i with
    | zero => simp [evalAt]
    | succ i => simp [evalAt, ih]

theorem evalAt_of_getElem? (op : Operator) {i : Nat} {e : Expr} (h : operands[i]? = some e) :
    evalAt scope depth op i operands = eval scope depth e := by
  rw [evalAt_eq, h]

theorem evalAt_of_lt {i : Nat} (h : i < operands.length) :
    evalAt scope depth op i operands = eval scope depth operands[i] :=
  evalAt_of_getElem? op (List.getElem?_eq_getElem h)

theorem evalAll_error {err : Error} (h : evalAll scope depth operands = .error err) :
    ∃ e ∈ operands, eval scope depth e = .error err := by
  induction operands with
  | nil => simp [evalAll] at h
  | cons e es ih =>
    cases hx : eval scope depth e with
    | error other =>
      have heq : other = err := by simpa [evalAll, hx] using h
      subst heq
      exact ⟨e, List.mem_cons_self .., hx⟩
    | ok x =>
      cases hxs : evalAll scope depth es with
      | ok xs => simp [evalAll, hx, hxs] at h
      | error other =>
        have heq : other = err := by simpa [evalAll, hx, hxs] using h
        subst heq
        obtain ⟨e', he', heval⟩ := ih hxs
        exact ⟨e', List.mem_cons_of_mem _ he', heval⟩

end Reckon.Expr
