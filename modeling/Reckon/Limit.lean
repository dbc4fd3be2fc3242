set_option autoImplicit false

namespace Reckon

/-- How deep a nesting may be; without a number there is no bound. -/
abbrev Limit := Option Nat

def Limit.allows : Limit → Nat → Bool
  | none, _ => true
  | some bound, depth => decide (depth ≤ bound)

def Limit.Within (limit larger : Limit) : Prop :=
  ∀ depth, limit.allows depth = true → larger.allows depth = true

/-- How much nesting the machine bears before its stack is used up. -/
class Stack where
  /-- Of argument lists, in a line that is run. -/
  arguments : Limit
  /-- Of argument lists, in a line that is only read, for which the stack is not enlarged. -/
  bareArguments : Limit
  /-- Of expressions that are evaluated, the bodies of called functions included. -/
  nesting : Limit
  /-- Of expressions that are printed. -/
  printing : Nat
  bare_within : bareArguments.Within arguments
  bare_one : bareArguments.allows 1 = true
  /-- A sign and its operand can be evaluated. -/
  nesting_two : nesting.allows 2 = true

/-- The usual stack, on which the command runs. -/
instance : Stack where
  arguments := some 3300
  bareArguments := some 330
  nesting := some 9900
  printing := 199
  bare_within depth h := by
    simp only [Limit.allows, decide_eq_true_eq] at h ⊢
    omega
  bare_one := rfl
  nesting_two := rfl

theorem Limit.allows_none (depth : Nat) : Limit.allows none depth = true := rfl

theorem Limit.within_none (limit : Limit) : limit.Within none := fun _ _ => rfl

theorem Limit.allows_of_le {limit : Limit} {m n : Nat} (h : limit.allows n = true) (hle : m ≤ n) :
    limit.allows m = true := by
  cases limit with
  | none => rfl
  | some bound =>
    simp only [allows, decide_eq_true_eq] at h ⊢
    omega

theorem Limit.not_allows_succ {limit : Limit} {depth : Nat} (h : limit.allows depth = false) :
    limit.allows (depth + 1) = false := by
  rw [Bool.eq_false_iff] at h ⊢
  exact fun hsucc => h (allows_of_le hsucc (Nat.le_succ depth))

theorem Stack.arguments_one [Stack] : Stack.arguments.allows 1 = true :=
  Stack.bare_within 1 Stack.bare_one

theorem Stack.nesting_one [Stack] : Stack.nesting.allows 1 = true :=
  Limit.allows_of_le Stack.nesting_two (Nat.le_succ 1)

end Reckon
