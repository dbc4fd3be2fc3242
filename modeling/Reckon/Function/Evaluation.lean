import Reckon.Function.Table
import Reckon.Operator.Meaning
import Reckon.Limit
/-!
The value of an expression. Operands are evaluated from left to right, those of a choice only if
picked. A user function is called with the values of its arguments, and its body sees
these values and nothing of its caller. Calls are nested at most `callCeiling` deep, which is
the measure that ends every evaluation.
-/
set_option autoImplicit false

namespace Reckon

/-- What names mean, and how deep an expression may be nested. `call` runs a user function on
values at a depth. -/
structure Scope where
  table : FunctionTable
  bindings : List (String × Number)
  limit : Limit
  call : Formula → List Number → Nat → Except Error Number

namespace Expr

mutual

def eval (scope : Scope) (depth : Nat) : Expr → Except Error Number
  | .constant value => if scope.limit.allows depth then .ok value else .error .excessiveRecursion
  | .operator op operands =>
    if scope.limit.allows depth then
      match op.meaning with
      | .constant value => .ok value
      | .unary apply =>
        match evalAt scope (depth + 1) op 0 operands with
        | .ok x => .ok (apply x)
        | .error e => .error e
      | .binary apply =>
        match evalAt scope (depth + 1) op 0 operands with
        | .ok x =>
          match evalAt scope (depth + 1) op 1 operands with
          | .ok y => .ok (apply x y)
          | .error e => .error e
        | .error e => .error e
      | .choice choose =>
        match evalAt scope (depth + 1) op 0 operands with
        | .ok x => if choose x = 0 then .ok x else evalAt scope (depth + 1) op (choose x) operands
        | .error e => .error e
      | .structural => .error (.invalidUse op.name)
    else .error .excessiveRecursion
  | .call name operands =>
    if scope.limit.allows depth then
      match Text.lookup? name scope.bindings with
      | some value => if operands.isEmpty then .ok value else .error (.parameterCalled name)
      | none =>
        match scope.table.find? name with
        | none => .error (.unknownName name)
        | some f =>
          if operands.length = f.parameters.length then
            match evalAll scope (depth + 2) operands with
            | .ok values => scope.call f values (depth + 1)
            | .error e => .error e
          else .error (.wrongArity name f.parameters.length operands.length)
    else .error .excessiveRecursion

def evalAt (scope : Scope) (depth : Nat) (op : Operator) : Nat → List Expr → Except Error Number
  | _, [] => .error (.malformedNode op.name)
  | 0, e :: _ => eval scope depth e
  | i + 1, _ :: es => evalAt scope depth op i es

def evalAll (scope : Scope) (depth : Nat) : List Expr → Except Error (List Number)
  | [] => .ok []
  | e :: es =>
    match eval scope depth e with
    | .ok x =>
      match evalAll scope depth es with
      | .ok xs => .ok (x :: xs)
      | .error err => .error err
    | .error err => .error err

end

end Expr

/-- Runs a user function, inside which calls may be nested so much deeper. With nothing left the
call fails, its arguments evaluated. -/
def FunctionTable.call (table : FunctionTable) (limit : Limit) :
    Nat → Formula → List Number → Nat → Except Error Number
  | 0, _, _, _ => .error .excessiveRecursion
  | calls + 1, f, values, depth =>
    f.body.eval ⟨table, f.parameters.zip values, limit, table.call limit calls⟩ depth

def callCeiling : Nat := 256

def FunctionTable.evaluate (table : FunctionTable) (limit : Limit) (e : Expr) :
    Except Error Number :=
  e.eval ⟨table, [], limit, table.call limit callCeiling⟩ 1

end Reckon
