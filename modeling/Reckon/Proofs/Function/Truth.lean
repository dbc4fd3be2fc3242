import Reckon.Session
import Reckon.Proofs.Function.Depth
set_option autoImplicit false

namespace Reckon

namespace Number

def IsSubnormal : Number → Prop
  | .finite _ units _ => 0 < units ∧ units < leastNormal
  | _ => False

theorem isZero_flush (x : Number) : x.flush.isZero = true ↔ x.isZero = true ∨ x.IsSubnormal := by
  cases x with
  | nan => simp [flush, isZero, IsSubnormal]
  | infinite negative => simp [flush, isZero, IsSubnormal]
  | finite negative units h =>
    have hleast : 0 < leastNormal := pow2_pos 52
    by_cases hunits : units < leastNormal
    · simp [flush, isZero, IsSubnormal, zero, hunits]
      omega
    · simp [flush, isZero, IsSubnormal, hunits]

theorem isZero_ofBool (b : Bool) : (ofBool b).isZero = !b := by cases b <;> decide +kernel

theorem isZero_logicalNot (x : Number) : x.logicalNot.isZero = !x.flush.isZero := isZero_ofBool _

theorem signed_eq_zero_iff (negative : Bool) (units : Nat) :
    signed negative units = 0 ↔ units = 0 := by
  cases negative <;> simp [signed]

theorem equal_zero (x : Number) (negative : Bool) : x.equal (zero negative) = x.isZero := by
  have hzero : signed negative 0 = 0 := (signed_eq_zero_iff negative 0).2 rfl
  cases x with
  | nan => rfl
  | infinite _ => rfl
  | finite a units h =>
    rw [Bool.eq_iff_iff]
    simp [equal, zero, isZero, hzero, signed_eq_zero_iff]

theorem compared_equal_zero (x : Number) (negative : Bool) :
    compared equal x (zero negative) = x.logicalNot := by
  have hflush : (zero negative).flush = zero negative := by simp [flush, zero]
  rw [compared, hflush, equal_zero, logicalNot]

theorem IsSubnormal.isTrue {x : Number} (h : x.IsSubnormal) : x.isTrue = true := by
  cases x with
  | finite negative units hfits => simpa [Number.isTrue, isZero] using Nat.ne_of_gt h.1
  | nan | infinite _ => exact h.elim

theorem isZero_logicalNot_iff (x : Number) : x.logicalNot.isZero = x.isTrue ↔ ¬ x.IsSubnormal := by
  have hflush := x.isZero_flush
  rw [isZero_logicalNot]
  constructor
  · intro hsame hx
    rw [hflush.2 (.inr hx), hx.isTrue] at hsame
    cases hsame
  · intro hx
    rw [isTrue, Bool.eq_iff_iff.2 (hflush.trans (or_iff_left hx))]

end Number

namespace Expr

variable {table : FunctionTable} {limit : Limit} {calls depth : Nat} {bindings : Bindings}
  {a b c : Expr}

theorem eval_frame_choice {op : Operator} {choose : Number → Nat} {operands : List Expr}
    (hallows : limit.allows depth = true) (hmeaning : op.meaning = .choice choose) :
    eval (table.frame limit calls bindings) depth (.operator op (a :: operands)) =
      match eval (table.frame limit calls bindings) (depth + 1) a with
      | .ok x =>
        if choose x = 0 then .ok x
        else evalAt (table.frame limit calls bindings) (depth + 1) op (choose x) (a :: operands)
      | .error err => .error err := by
  rw [eval_frame_operator hallows]
  cases hx : eval (table.frame limit calls bindings) (depth + 1) a <;>
    simp [Operator.outcome, hmeaning, evalAt, hx]

theorem eval_logicalOr (hallows : limit.allows depth = true) :
    eval (table.frame limit calls bindings) depth (.operator .logicalOr [a, b]) =
      match eval (table.frame limit calls bindings) (depth + 1) a with
      | .ok x => if x.isTrue then .ok x else eval (table.frame limit calls bindings) (depth + 1) b
      | .error err => .error err := by
  rw [eval_frame_choice hallows rfl]
  cases eval (table.frame limit calls bindings) (depth + 1) a with
  | error err => rfl
  | ok x => cases hx : x.isTrue <;> simp [hx, evalAt]

theorem eval_logicalAnd (hallows : limit.allows depth = true) :
    eval (table.frame limit calls bindings) depth (.operator .logicalAnd [a, b]) =
      match eval (table.frame limit calls bindings) (depth + 1) a with
      | .ok x => if x.isTrue then eval (table.frame limit calls bindings) (depth + 1) b else .ok x
      | .error err => .error err := by
  rw [eval_frame_choice hallows rfl]
  cases eval (table.frame limit calls bindings) (depth + 1) a with
  | error err => rfl
  | ok x => cases hx : x.isTrue <;> simp [hx, evalAt]

theorem eval_conditional (hallows : limit.allows depth = true) :
    eval (table.frame limit calls bindings) depth (.operator .conditional [a, b, c]) =
      match eval (table.frame limit calls bindings) (depth + 1) a with
      | .ok x =>
        if x.isTrue then eval (table.frame limit calls bindings) (depth + 1) b
        else eval (table.frame limit calls bindings) (depth + 1) c
      | .error err => .error err := by
  rw [eval_frame_choice hallows rfl]
  cases eval (table.frame limit calls bindings) (depth + 1) a with
  | error err => rfl
  | ok x => cases hx : x.isTrue <;> simp [hx, evalAt]

theorem eval_logicalNot (hallows : limit.allows depth = true) :
    eval (table.frame limit calls bindings) depth (.operator .logicalNot [a]) =
      (eval (table.frame limit calls bindings) (depth + 1) a).map Number.logicalNot := by
  rw [eval_frame_operator hallows]
  simp only [Operator.outcome, Operator.meaning, evalAt]
  cases eval (table.frame limit calls bindings) (depth + 1) a <;> rfl

/-- Comparing with a zero is negation, as the zero stands no deeper than the other operand. -/
theorem eval_equal_zero (hallows : limit.allows depth = true) (negative : Bool) :
    eval (table.frame limit calls bindings) depth
        (.operator .equal [a, .constant (.zero negative)]) =
      (eval (table.frame limit calls bindings) (depth + 1) a).map Number.logicalNot := by
  rw [eval_frame_operator hallows]
  simp only [Operator.outcome, Operator.meaning, evalAt]
  cases hx : eval (table.frame limit calls bindings) (depth + 1) a with
  | error err => rfl
  | ok x =>
    have hdepth : limit.allows (depth + 1) = true := allows_of_eval_ok hx
    simp [eval, FunctionTable.frame, hdepth, Number.compared_equal_zero, Except.map]

theorem eval_conditional_logicalNot (b c : Expr)
    (h : ∀ x, eval (table.frame limit calls bindings) (depth + 1) a = .ok x → ¬ x.IsSubnormal) :
    limit.SameOrCut
      (eval (table.frame limit calls bindings) depth
        (.operator .conditional [.operator .logicalNot [a], c, b]))
      (eval (table.frame limit calls bindings) depth (.operator .conditional [a, b, c])) := by
  cases hallows : limit.allows depth with
  | false =>
    rw [eval_of_not_allows hallows]
    exact .of_not_allows hallows _
  | true =>
    rw [eval_conditional hallows, eval_conditional hallows]
    cases hinner : limit.allows (depth + 1) with
    | false =>
      rw [eval_of_not_allows hinner]
      exact .of_not_allows hinner _
    | true =>
      rw [eval_logicalNot hinner]
      rcases eval_deeper (Nat.le_succ (depth + 1)) a with heq | ⟨hlimit, hcut⟩
      · rw [heq]
        cases hx : eval (table.frame limit calls bindings) (depth + 1) a with
        | error err => exact .refl limit _
        | ok x =>
          have hzero := x.isZero_logicalNot_iff.2 (h x hx)
          refine .inl ?_
          simp only [Except.map]
          rw [Number.isTrue, hzero]
          cases x.isTrue <;> rfl
      · exact .inr ⟨hlimit, by rw [hcut]; rfl⟩

theorem eval_conditional_of_subnormal {x : Number} (b c : Expr)
    (hx : eval (table.frame none calls bindings) (depth + 1) a = .ok x)
    (hsubnormal : x.IsSubnormal) :
    eval (table.frame none calls bindings) depth (.operator .conditional [a, b, c]) =
        eval (table.frame none calls bindings) (depth + 1) b ∧
      eval (table.frame none calls bindings) depth
          (.operator .conditional [.operator .logicalNot [a], c, b]) =
        eval (table.frame none calls bindings) (depth + 1) c := by
  have hflush : x.flush.isZero = true := x.isZero_flush.2 (.inr hsubnormal)
  have hnot : x.logicalNot.isTrue = true := by rw [Number.isTrue, x.isZero_logicalNot, hflush]; rfl
  have hdeeper := (eval_deeper (Nat.le_succ (depth + 1)) a).eq_of_none.trans hx
  rw [eval_conditional rfl, eval_conditional rfl, eval_logicalNot rfl, hdeeper, hx]
  simp [Except.map, hsubnormal.isTrue, hnot]

end Expr

/-- What the choices take as true is what has a zero for its negation, and for its comparison with
zero, unless it is a magnitude below the normal ones. Any other condition can be negated with
its branches swapped, and the nesting of the negation alone can make a difference. -/
theorem truth_tests (table : FunctionTable) (limit : Limit) (calls depth : Nat)
    (bindings : Bindings) (a : Expr) :
    let value := Expr.eval (table.frame limit calls bindings)
    (∀ x, value (depth + 1) a = .ok x →
      (∀ b, value depth (.operator .logicalOr [a, b]) =
        if x.isTrue then .ok x else value (depth + 1) b) ∧
      (∀ b, value depth (.operator .logicalAnd [a, b]) =
        if x.isTrue then value (depth + 1) b else .ok x) ∧
      (∀ b c, value depth (.operator .conditional [a, b, c]) =
        if x.isTrue then value (depth + 1) b else value (depth + 1) c) ∧
      ∃ y, value depth (.operator .logicalNot [a]) = .ok y ∧
        (∀ negative, value depth (.operator .equal [a, .constant (.zero negative)]) = .ok y) ∧
        (y.isZero = x.isTrue ↔ ¬ x.IsSubnormal)) ∧
    ((∀ x, value (depth + 1) a = .ok x → ¬ x.IsSubnormal) → ∀ b c, limit.SameOrCut
      (value depth (.operator .conditional [.operator .logicalNot [a], c, b]))
      (value depth (.operator .conditional [a, b, c]))) ∧
    (limit = none →
      ((∀ b c, value depth (.operator .conditional [.operator .logicalNot [a], c, b]) =
          value depth (.operator .conditional [a, b, c])) ↔
        ∀ x, value (depth + 1) a = .ok x → ¬ x.IsSubnormal)) := by
  intro value
  refine ⟨?_, fun h b c => Expr.eval_conditional_logicalNot b c h, ?_⟩
  · intro x hx
    have hallows := Limit.allows_of_le (Expr.allows_of_eval_ok hx) (Nat.le_succ depth)
    refine ⟨fun b => ?_, fun b => ?_, fun b c => ?_, x.logicalNot, ?_, fun negative => ?_,
      x.isZero_logicalNot_iff⟩
    · simp only [value, Expr.eval_logicalOr hallows, hx]
    · simp only [value, Expr.eval_logicalAnd hallows, hx]
    · simp only [value, Expr.eval_conditional hallows, hx]
    · simp only [value, Expr.eval_logicalNot hallows, hx, Except.map]
    · simp only [value, Expr.eval_equal_zero hallows, hx, Except.map]
  · rintro rfl
    constructor
    · intro hsame x hx hsubnormal
      obtain ⟨hplain, hswapped⟩ := Expr.eval_conditional_of_subnormal (.constant .nan)
        (.constant (.zero false)) hx hsubnormal
      have hbranches := hswapped.symm.trans ((hsame _ _).trans hplain)
      simp [Expr.eval, FunctionTable.frame, Limit.allows_none, Number.zero] at hbranches
    · intro h b c
      exact (Expr.eval_conditional_logicalNot b c h).eq_of_none

theorem truth_tests_nan :
    let value := Expr.eval (FunctionTable.empty.frame none callCeiling []) 1
    let a : Expr := .constant .nan
    value (.operator .logicalOr [a, .call "f" []]) = .ok .nan ∧
      (∃ y, value (.operator .logicalNot [a]) = .ok y ∧ y.isZero = true) ∧
      value (.operator .conditional [.operator .logicalNot [a], .call "f" [], a]) =
        value (.operator .conditional [a, a, .call "f" []]) := by
  intro value a
  obtain ⟨htruth, -, hswapped⟩ := truth_tests .empty none callCeiling 1 [] a
  have hvalue : Expr.eval (FunctionTable.empty.frame none callCeiling []) 2 a = .ok .nan := by
    simp [a, Expr.eval, FunctionTable.frame, Limit.allows_none]
  obtain ⟨hor, -, -, y, hnot, -, hzero⟩ := htruth .nan hvalue
  refine ⟨hor _, ⟨y, hnot, (hzero.2 id).trans rfl⟩, (hswapped rfl).2 ?_ _ _⟩
  intro x hx
  rw [hvalue] at hx
  cases hx
  exact id

/-- The lines take different branches, as the literal is below the normal magnitudes. -/
theorem truth_tests_subnormal :
    (Run.line .empty "(1e-310)?(1):(2)").outcome ≠
      (Run.line .empty "!(1e-310)?(2):(1)").outcome := by
  have hplain : (Run.line .empty "(1e-310)?(1):(2)").outcome = .ok [.ofBool true] :=
    Run.outcome_eq_ok_iff.2
      ⟨Option.isNone_iff_eq_none.1 (by decide +kernel), by decide +kernel⟩
  have hswapped : (Run.line .empty "!(1e-310)?(2):(1)").values ≠ [.ofBool true] := by
    decide +kernel
  intro h
  exact hswapped (Run.outcome_eq_ok_iff.1 (h.symm.trans hplain)).2

end Reckon
