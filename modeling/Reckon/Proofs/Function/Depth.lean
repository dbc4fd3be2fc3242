import Reckon.Proofs.Function.Operands
set_option autoImplicit false

namespace Reckon

/-- The outcome is the other one unless the bound on nesting cuts the evaluation short. -/
def Limit.SameOrCut {α : Type} (limit : Limit) (r r' : Except Error α) : Prop :=
  r = r' ∨ limit ≠ none ∧ r = .error .excessiveRecursion

namespace Limit.SameOrCut

variable {α : Type} {limit : Limit} {r r' : Except Error α} {depth depth' : Nat}

theorem refl (limit : Limit) (r : Except Error α) : limit.SameOrCut r r := .inl rfl

theorem eq_of_none (h : SameOrCut none r r') : r = r' := by
  rcases h with h | ⟨hnone, -⟩
  · exact h
  · exact absurd rfl hnone

theorem outcome (op : Operator) {operand operand' : Nat → Except Error Number}
    (h : ∀ i, limit.SameOrCut (operand i) (operand' i)) :
    limit.SameOrCut (op.outcome operand) (op.outcome operand') := by
  by_cases hsame : ∀ i, op.Asks operand i → operand' i = operand i
  · exact .inl (Operator.outcome_congr hsame).symm
  · simp only [Classical.not_forall] at hsame
    obtain ⟨i, hasks, hne⟩ := hsame
    rcases h i with heq | ⟨hlimit, hcut⟩
    · exact absurd heq.symm hne
    · exact .inr ⟨hlimit, Operator.outcome_of_error hasks hcut⟩

theorem of_not_allows (h : limit.allows depth' = false) (r' : Except Error α) :
    limit.SameOrCut (.error .excessiveRecursion) r' := by
  refine .inr ⟨?_, rfl⟩
  rintro rfl
  cases h

end Limit.SameOrCut

namespace Expr

variable {table : FunctionTable} {limit : Limit} {calls depth depth' : Nat} {bindings : Bindings}
  {name : String} {operands : List Expr}

theorem evalAll_deeper {scope : Scope}
    (h : ∀ e ∈ operands, limit.SameOrCut (e.eval scope depth') (e.eval scope depth)) :
    limit.SameOrCut (evalAll scope depth' operands) (evalAll scope depth operands) := by
  induction operands with
  | nil => exact .inl (by simp [evalAll])
  | cons e es ih =>
    obtain ⟨he, hes⟩ := List.forall_mem_cons.1 h
    rcases he with heq | ⟨hlimit, hcut⟩
    · simp only [evalAll, heq]
      cases e.eval scope depth with
      | error err => exact .refl limit _
      | ok x =>
        rcases ih hes with hrest | ⟨hlimit, hcut⟩
        · simp only [hrest]
          exact .refl limit _
        · exact .inr ⟨hlimit, by simp only [hcut]⟩
    · exact .inr ⟨hlimit, by simp only [evalAll, hcut]⟩

theorem eval_deeper (hle : depth ≤ depth') (e : Expr) :
    limit.SameOrCut (e.eval (table.frame limit calls bindings) depth')
      (e.eval (table.frame limit calls bindings) depth) := by
  -- The body of a function has fewer calls left, and everything else is a part of the expression.
  induction calls using Nat.strongRecOn generalizing bindings depth depth' e with
  | ind calls ihc =>
    induction e using Expr.induction_operands generalizing depth depth' with
    | constant value =>
      cases hallows : limit.allows depth' with
      | false =>
        rw [eval_of_not_allows hallows]
        exact .of_not_allows hallows _
      | true =>
        have houter := Limit.allows_of_le hallows hle
        exact .inl (by simp [eval, FunctionTable.frame, hallows, houter])
    | operator op operands ih =>
      cases hallows : limit.allows depth' with
      | false =>
        rw [eval_of_not_allows hallows]
        exact .of_not_allows hallows _
      | true =>
        rw [eval_frame_operator hallows, eval_frame_operator (Limit.allows_of_le hallows hle)]
        refine .outcome op fun i => ?_
        rw [evalAt_eq, evalAt_eq]
        cases hi : operands[i]? with
        | none => exact .refl limit _
        | some e => exact ih e (List.mem_of_getElem? hi) (Nat.succ_le_succ hle)
    | call name operands ih =>
      cases hallows : limit.allows depth' with
      | false =>
        rw [eval_of_not_allows hallows]
        exact .of_not_allows hallows _
      | true =>
        have houter := Limit.allows_of_le hallows hle
        cases hlookup : Text.lookup? name bindings with
        | some value => exact .inl (by simp [eval, FunctionTable.frame, hallows, houter, hlookup])
        | none =>
          cases hf : table.find? name with
          | none => exact .inl (by simp [eval, FunctionTable.frame, hallows, houter, hlookup, hf])
          | some f =>
            by_cases harity : operands.length = f.parameters.length
            · have hcalls : table.Calls bindings name operands f := ⟨hlookup, hf, harity⟩
              rw [eval_frame_call hallows hcalls, eval_frame_call houter hcalls]
              rcases evalAll_deeper fun e he => ih e he (Nat.add_le_add_right hle 2) with
                heq | ⟨hlimit, hcut⟩
              · rw [heq]
                cases evalAll (table.frame limit calls bindings) (depth + 2) operands with
                | error err => exact .refl limit _
                | ok values =>
                  cases calls with
                  | zero => exact .refl limit _
                  | succ calls => exact ihc calls (Nat.lt_succ_self _) (Nat.succ_le_succ hle) f.body
              · exact .inr ⟨hlimit, by rw [hcut]⟩
            · exact .inl (by simp [eval, FunctionTable.frame, hallows, houter, hlookup, hf, harity])

end Expr

end Reckon
