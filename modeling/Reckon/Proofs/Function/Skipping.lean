import Reckon.Proofs.Function.Operands
/-!
What an evaluation never comes to does not matter. The places of an expression to which its
evaluation comes are told by the evaluation (`Expr.Visits`); at all others there may stand
anything (`Expr.eval_replace`), in particular in the operands that a choice leaves out
(`eval_replace_skipped`).
-/
set_option autoImplicit false

namespace Reckon

/-- A place in an expression: the numbers of the operands on the way to it, counted from zero. -/
abbrev Place := List Nat

/-- The operands that are left out when the first operand of a choice has a value. -/
inductive Operator.LeavesOut : Operator → Number → Nat → Prop where
  | logicalOr {x : Number} : x.isTrue = true → LeavesOut .logicalOr x 1
  | logicalAnd {x : Number} : x.isTrue = false → LeavesOut .logicalAnd x 1
  | otherwise {x : Number} : x.isTrue = true → LeavesOut .conditional x 2
  | consequence {x : Number} : x.isTrue = false → LeavesOut .conditional x 1

namespace Operator.LeavesOut

variable {op : Operator} {x : Number} {i : Nat}

theorem exists_choice (h : op.LeavesOut x i) :
    ∃ choose, op.meaning = .choice choose ∧ i ≠ 0 ∧ choose x ≠ i := by
  cases h with
  | logicalOr htrue => exact ⟨_, rfl, by simp, by simp [htrue]⟩
  | logicalAnd hfalse => exact ⟨_, rfl, by simp, by simp [hfalse]⟩
  | otherwise htrue => exact ⟨_, rfl, by simp, by simp [htrue]⟩
  | consequence hfalse => exact ⟨_, rfl, by simp, by simp [hfalse]⟩

theorem not_asks {operand : Nat → Except Error Number} (h : op.LeavesOut x i)
    (hx : operand 0 = .ok x) : ¬ op.Asks operand i := by
  obtain ⟨choose, hmeaning, hne, hchoose⟩ := h.exists_choice
  intro hasks
  cases hasks with
  | first _ => exact hne rfl
  | second hbinary _ => cases hmeaning.symm.trans hbinary
  | chosen hchoice hx' _ =>
    cases hmeaning.symm.trans hchoice
    cases hx.symm.trans hx'
    exact hchoose rfl

end Operator.LeavesOut

namespace Expr

mutual

/-- The expression with others at some of its places. Nothing more is replaced inside of these. -/
def replace (other : Place → Option Expr) : Expr → Expr
  | .constant value => (other []).getD (.constant value)
  | .operator op operands => (other []).getD (.operator op (replaceAll other 0 operands))
  | .call name operands => (other []).getD (.call name (replaceAll other 0 operands))

def replaceAll (other : Place → Option Expr) : Nat → List Expr → List Expr
  | _, [] => []
  | i, e :: es => replace (fun place => other (i :: place)) e :: replaceAll other (i + 1) es

end

/-- Evaluation at a depth comes to the part of the expression at a place, which has a depth of its
own. -/
inductive Visits (scope : Scope) : Nat → Expr → Place → Nat → Expr → Prop where
  | here {depth : Nat} {e : Expr} : Visits scope depth e [] depth e
  | operand {depth inner i : Nat} {op : Operator} {operands : List Expr} {e part : Expr}
      {place : Place} :
      scope.limit.allows depth = true →
      op.Asks (fun i => evalAt scope (depth + 1) op i operands) i → operands[i]? = some e →
      Visits scope (depth + 1) e place inner part →
      Visits scope depth (.operator op operands) (i :: place) inner part
  /-- The arguments before it have values. -/
  | argument {depth inner i : Nat} {name : String} {operands : List Expr} {f : Formula}
      {values : List Number} {e part : Expr} {place : Place} :
      scope.limit.allows depth = true → scope.table.Calls scope.bindings name operands f →
      evalAll scope (depth + 2) (operands.take i) = .ok values → operands[i]? = some e →
      Visits scope (depth + 2) e place inner part →
      Visits scope depth (.call name operands) (i :: place) inner part

/-- The place lies in an operand that a choice leaves out, or evaluation does not come to it for
another reason, such as an error before. -/
inductive Skipped (scope : Scope) (depth : Nat) (e : Expr) : Place → Prop where
  | leftOut {place rest : Place} {inner i : Nat} {op : Operator} {first : Expr}
      {further : List Expr} {x : Number} :
      Visits scope depth e place inner (.operator op (first :: further)) →
      first.eval scope (inner + 1) = .ok x → op.LeavesOut x i →
      Skipped scope depth e (place ++ i :: rest)
  | unvisited {place : Place} :
      (∀ inner part, ¬ Visits scope depth e place inner part) → Skipped scope depth e place

variable {scope : Scope} {depth inner : Nat} {op : Operator} {name : String} {e part : Expr}
  {operands : List Expr} {place : Place} {other : Place → Option Expr}

theorem Visits.of_append {rest : Place} {deeper : Nat} {part' : Expr}
    (h : Visits scope depth e place inner part)
    (h' : Visits scope depth e (place ++ rest) deeper part') :
    Visits scope inner part rest deeper part' := by
  induction h with
  | here => exact h'
  | operand _ _ he _ ih =>
    cases h' with
    | operand _ _ he' hvisits =>
      cases he.symm.trans he'
      exact ih hvisits
  | argument _ _ _ he _ ih =>
    cases h' with
    | argument _ _ _ he' hvisits =>
      cases he.symm.trans he'
      exact ih hvisits

theorem Skipped.not_visits (h : e.Skipped scope depth place) (inner : Nat) (part : Expr) :
    ¬ Visits scope depth e place inner part := by
  cases h with
  | leftOut hvisits hx hleft =>
    intro hplace
    cases hvisits.of_append hplace with
    | operand _ hasks _ _ => exact hleft.not_asks hx hasks
  | unvisited hnot => exact hnot inner part

theorem length_replaceAll (other : Place → Option Expr) (i : Nat) (es : List Expr) :
    (replaceAll other i es).length = es.length := by
  induction es generalizing i with
  | nil => rfl
  | cons e es ih => simp [replaceAll, ih]

theorem getElem?_replaceAll (other : Place → Option Expr) (first : Nat) (es : List Expr) (i : Nat) :
    (replaceAll other first es)[i]? =
      es[i]?.map (replace fun place => other ((first + i) :: place)) := by
  induction es generalizing first i with
  | nil => rfl
  | cons e es ih =>
    cases i with
    | zero => rfl
    | succ i =>
      have hnumber : first + 1 + i = first + (i + 1) := by omega
      simp [replaceAll, ih, hnumber]

theorem evalAll_congr {operands' : List Expr} (hlength : operands'.length = operands.length)
    (h : ∀ i values e e', evalAll scope depth (operands.take i) = .ok values →
      operands[i]? = some e → operands'[i]? = some e' → e'.eval scope depth = e.eval scope depth) :
    evalAll scope depth operands' = evalAll scope depth operands := by
  induction operands generalizing operands' with
  | nil => rw [List.eq_nil_of_length_eq_zero hlength]
  | cons e es ih =>
    cases operands' with
    | nil => cases hlength
    | cons e' es' =>
      have hfirst : e'.eval scope depth = e.eval scope depth := h 0 [] e e' rfl rfl rfl
      cases hx : e.eval scope depth with
      | error err => simp [evalAll, hfirst, hx]
      | ok x =>
        have hrest : evalAll scope depth es' = evalAll scope depth es := by
          refine ih (Nat.succ.inj hlength) fun i values a a' hvalues ha ha' => ?_
          refine h (i + 1) (x :: values) a a' ?_ ha ha'
          simp [evalAll, hx, hvalues]
        simp [evalAll, hfirst, hx, hrest]

theorem eval_call_congr {operands' : List Expr} (hlength : operands'.length = operands.length)
    (h : ∀ f, scope.limit.allows depth = true → scope.table.Calls scope.bindings name operands f →
      evalAll scope (depth + 2) operands' = evalAll scope (depth + 2) operands) :
    eval scope depth (.call name operands') = eval scope depth (.call name operands) := by
  have hempty : operands'.isEmpty = operands.isEmpty := by
    cases operands <;> cases operands' <;> simp_all
  cases hallows : scope.limit.allows depth with
  | false => rw [eval_of_not_allows hallows, eval_of_not_allows hallows]
  | true =>
    cases hlookup : Text.lookup? name scope.bindings with
    | some value => simp [eval, hallows, hlookup, hempty]
    | none =>
      cases hfind : scope.table.find? name with
      | none => simp [eval, hallows, hlookup, hfind]
      | some f =>
        by_cases harity : operands.length = f.parameters.length
        · have harguments := h f hallows ⟨hlookup, hfind, harity⟩
          simp [eval, hallows, hlookup, hfind, hlength, harguments]
        · simp [eval, hallows, hlookup, hfind, hlength, harity]

theorem eval_replace
    (h : ∀ place, other place ≠ none → ∀ inner part, ¬ Visits scope depth e place inner part) :
    (e.replace other).eval scope depth = e.eval scope depth := by
  -- Down the places to which evaluation comes, so the root is one at which nothing is replaced.
  induction e using induction_operands generalizing depth other with
  | constant value =>
    have hroot : other [] = none := Classical.byContradiction fun hne => h [] hne _ _ .here
    rw [replace, hroot, Option.getD_none]
  | operator op operands ih =>
    have hroot : other [] = none := Classical.byContradiction fun hne => h [] hne _ _ .here
    rw [replace, hroot, Option.getD_none, eval_operator, eval_operator]
    cases hallows : scope.limit.allows depth with
    | false => rfl
    | true =>
      rw [if_pos rfl, if_pos rfl]
      refine Operator.outcome_congr fun i hasks => ?_
      rw [evalAt_eq, evalAt_eq, getElem?_replaceAll, Nat.zero_add]
      cases hi : operands[i]? with
      | none => rfl
      | some e =>
        exact ih e (List.mem_of_getElem? hi) fun place hne inner part hvisits =>
          h (i :: place) hne inner part (.operand hallows hasks hi hvisits)
  | call name operands ih =>
    have hroot : other [] = none := Classical.byContradiction fun hne => h [] hne _ _ .here
    rw [replace, hroot, Option.getD_none]
    refine eval_call_congr (length_replaceAll other 0 operands) fun f hallows hcalls => ?_
    refine evalAll_congr (length_replaceAll other 0 operands) fun i values e e' hvalues hi hi' => ?_
    rw [getElem?_replaceAll, hi, Nat.zero_add] at hi'
    cases hi'
    exact ih e (List.mem_of_getElem? hi) fun place hne inner part hvisits =>
      h (i :: place) hne inner part (.argument hallows hcalls hvalues hi hvisits)

end Expr

/-- Operands that are skipped are irrelevant. In every scope, with whatever functions and bindings,
and at every depth, other expressions can stand at any places that a choice leaves out or to which
evaluation does not come, and the outcome is the same, a value or an error. -/
theorem eval_replace_skipped (scope : Scope) (depth : Nat) (e : Expr)
    (other : Place → Option Expr)
    (h : ∀ place, other place ≠ none → e.Skipped scope depth place) :
    (e.replace other).eval scope depth = e.eval scope depth :=
  Expr.eval_replace fun place hne => (h place hne).not_visits

theorem eval_replace_skipped_endless :
    let table := FunctionTable.empty.define "loop" ⟨[], .call "loop" []⟩
    let scope := table.frame Stack.nesting callCeiling []
    let e : Expr := .operator .add
      [.operator .logicalOr [.constant .nan, .constant .nan],
       .operator .conditional [.constant (.zero true), .operator .negate [.constant .nan],
        .constant .nan]]
    let other : Place → Option Expr := fun place =>
      if place = [0, 1] then some (.call "loop" [])
      else if place = [1, 1, 0] then some (.call "nowhere" []) else none
    (∀ place, other place ≠ none → e.Skipped scope 1 place) ∧
      (e.replace other).eval scope 1 = e.eval scope 1 := by
  intro table scope e other
  have hor : e.Visits scope 1 [0] 2 (.operator .logicalOr [.constant .nan, .constant .nan]) :=
    .operand rfl (.first trivial) rfl .here
  have hconditional : e.Visits scope 1 [1] 2 (.operator .conditional
      [.constant (.zero true), .operator .negate [.constant .nan], .constant .nan]) :=
    .operand rfl (.second rfl (x := .nan) rfl) rfl .here
  have h : ∀ place, other place ≠ none → e.Skipped scope 1 place := by
    intro place hne
    have hright : e.Skipped scope 1 ([0] ++ 1 :: []) := .leftOut hor rfl (.logicalOr rfl)
    have hbranch : e.Skipped scope 1 ([1] ++ 1 :: [0]) :=
      .leftOut hconditional rfl (.consequence rfl)
    by_cases hfirst : place = [0, 1]
    · exact hfirst ▸ hright
    · by_cases hsecond : place = [1, 1, 0]
      · exact hsecond ▸ hbranch
      · exact absurd (by simp [other, hfirst, hsecond]) hne
  exact ⟨h, eval_replace_skipped scope 1 e other h⟩

end Reckon
