import Reckon.Expr.Basic
import Reckon.Operator.Meaning
set_option autoImplicit false

namespace Reckon

inductive Expr.WellFormed : Expr → Prop where
  | constant {value : Number} : WellFormed (.constant value)
  | operator {op : Operator} {operands : List Expr} :
      op ≠ .terminator → operands.length = op.arity → (∀ e ∈ operands, e.WellFormed) →
      WellFormed (.operator op operands)
  | call {name : String} {operands : List Expr} :
      (∀ e ∈ operands, e.WellFormed) → WellFormed (.call name operands)

namespace Expr.WellFormed

variable {op : Operator} {operands : List Expr} {name : String} {left right e : Expr}

theorem length_operands (h : WellFormed (.operator op operands)) : operands.length = op.arity := by
  cases h with
  | operator _ hlen _ => exact hlen

theorem operands_of_operator (h : WellFormed (.operator op operands)) :
    ∀ e ∈ operands, e.WellFormed := by
  cases h with
  | operator _ _ hall => exact hall

theorem ofName (h : Expr.ofName name operands = .ok e) (hall : ∀ e ∈ operands, e.WellFormed) :
    e.WellFormed := by
  unfold Expr.ofName at h
  split at h
  · cases h
    exact .call hall
  · rename_i op hfind
    split at h
    · rename_i hlen
      cases h
      refine .operator ?_ hlen hall
      rintro rfl
      exact absurd (List.mem_of_find?_eq_some hfind) (by decide)
    · cases h

theorem ofInfix (hop : op.arity = 2) (hleft : left.WellFormed) (hright : right.WellFormed) :
    (Expr.ofInfix op left right).WellFormed := by
  unfold Expr.ofInfix
  split
  · rename_i branches
    have hlen : branches.length = 2 := hright.length_operands
    refine .operator (by decide) (by simp [hlen]; rfl) ?_
    simpa using ⟨hleft, hright.operands_of_operator⟩
  · refine .operator ?_ (by simp [hop]) (by simpa using ⟨hleft, hright⟩)
    rintro rfl
    cases hop

end Expr.WellFormed

def Error.IsMalformed (err : Error) : Prop := ∃ name, err = .malformedNode name

theorem Expr.ofName_error {name : String} {operands : List Expr} {err : Error}
    (h : Expr.ofName name operands = .error err) :
    ∃ expected got, err = .wrongArity name expected got := by
  unfold Expr.ofName at h
  split at h
  · cases h
  · split at h
    · cases h
    · cases h
      exact ⟨_, _, rfl⟩

def Meaning.Within (arity : Nat) : Meaning → Prop
  | .constant _ => True
  | .unary _ => arity = 1
  | .binary _ => arity = 2
  | .choice choose => 0 < arity ∧ ∀ x, choose x < arity
  | .structural => True

theorem Operator.meaning_within (op : Operator) : op.meaning.Within op.arity := by
  have hchoice : ∀ (b : Bool) (m n k : Nat), m < k → n < k → (if b = true then m else n) < k := by
    intro b m n k hm hn
    cases b <;> simpa
  cases op <;> first
    | exact trivial
    | exact rfl
    | exact ⟨by decide, fun x => hchoice _ _ _ _ (by decide) (by decide)⟩

end Reckon
