import Reckon.Function.Evaluation
import Reckon.Statement.Line
set_option autoImplicit false

namespace Reckon

inductive Effect where
  | value (x : Number)
  /-- The function now has this definition; another one was replaced or not. -/
  | defined (d : Definition) (replaced : Bool)

namespace Effect

def value? : Effect → Option Number
  | .value x => some x
  | .defined _ _ => none

def announcement? : Effect → Option String
  | .value _ => none
  | .defined d replaced =>
    some ((if replaced then "redefining " else "defining ") ++ d.formula.signature d.name)

end Effect

namespace FunctionTable

def adopt (table : FunctionTable) (d : Definition) : Effect × FunctionTable :=
  (.defined d (table.find? d.name).isSome, table.define d.name d.formula)

def run [Stack] (table : FunctionTable) (statement : Expr) :
    Except Error (Effect × FunctionTable) :=
  match statement.definition? with
  | some d => .ok (table.adopt d)
  | none =>
    match table.evaluate Stack.nesting statement with
    | .ok x => .ok (.value x, table)
    | .error e => .error e

end FunctionTable

structure Interruption where
  statement : Option Expr
  error : Error

structure Run where
  completed : List (Expr × Effect)
  interruption : Option Interruption
  table : FunctionTable

namespace Run

/-- Runs statements in order until one fails. `failure` is what comes after the last one. -/
def statements [Stack] (failure : Option Error) : FunctionTable → List Expr → Run
  | table, [] => ⟨[], failure.map fun e => ⟨none, e⟩, table⟩
  | table, e :: es =>
    match table.run e with
    | .error err => ⟨[], some ⟨some e, err⟩, table⟩
    | .ok (effect, table) =>
      let further := statements failure table es
      ⟨(e, effect) :: further.completed, further.interruption, further.table⟩

def reading [Stack] (table : FunctionTable) (r : Reading) : Run :=
  statements r.failure table r.statements

/-- Reading does not depend on what runs, so this is the run in which each statement is read when
the ones before it have run. -/
def line [Stack] (table : FunctionTable) (source : String) : Run := reading table (.ofLine source)

def values (r : Run) : List Number := r.completed.filterMap fun step => step.2.value?

def outcome (r : Run) : Except Error (List Number) :=
  match r.interruption with
  | some i => .error i.error
  | none => .ok r.values

theorem outcome_eq_ok_iff {r : Run} {xs : List Number} :
    r.outcome = .ok xs ↔ r.interruption = none ∧ r.values = xs := by
  cases h : r.interruption <;> simp [outcome, h]

theorem outcome_eq_error_iff {r : Run} {err : Error} :
    r.outcome = .error err ↔ r.interruption.map Interruption.error = some err := by
  cases h : r.interruption <;> simp [outcome, h]

def announcements (r : Run) : List String := r.completed.filterMap fun step => step.2.announcement?

end Run

end Reckon
