import Reckon.Number.Basic
import Reckon.Operator.Registry
import Reckon.Error
set_option autoImplicit false

namespace Reckon

inductive Expr where
  | constant (value : Number)
  | operator (op : Operator) (operands : List Expr)
  | call (name : String) (operands : List Expr)

namespace Expr

mutual

def decEq : (a b : Expr) → Decidable (a = b)
  | .constant x, .constant y =>
    if h : x = y then .isTrue (h ▸ rfl) else .isFalse fun h' => h (Expr.constant.inj h')
  | .operator f as, .operator g bs =>
    if hf : f = g then
      match decEqList as bs with
      | .isTrue h => .isTrue (hf ▸ h ▸ rfl)
      | .isFalse h => .isFalse fun h' => h (Expr.operator.inj h').2
    else .isFalse fun h' => hf (Expr.operator.inj h').1
  | .call f as, .call g bs =>
    if hf : f = g then
      match decEqList as bs with
      | .isTrue h => .isTrue (hf ▸ h ▸ rfl)
      | .isFalse h => .isFalse fun h' => h (Expr.call.inj h').2
    else .isFalse fun h' => hf (Expr.call.inj h').1
  | .constant _, .operator _ _ => .isFalse nofun
  | .constant _, .call _ _ => .isFalse nofun
  | .operator _ _, .constant _ => .isFalse nofun
  | .operator _ _, .call _ _ => .isFalse nofun
  | .call _ _, .constant _ => .isFalse nofun
  | .call _ _, .operator _ _ => .isFalse nofun

def decEqList : (as bs : List Expr) → Decidable (as = bs)
  | [], [] => .isTrue rfl
  | [], _ :: _ => .isFalse nofun
  | _ :: _, [] => .isFalse nofun
  | a :: as, b :: bs =>
    match decEq a b with
    | .isFalse h => .isFalse fun h' => h (List.cons.inj h').1
    | .isTrue h₁ =>
      match decEqList as bs with
      | .isTrue h₂ => .isTrue (h₁ ▸ h₂ ▸ rfl)
      | .isFalse h => .isFalse fun h' => h (List.cons.inj h').2

end

instance : DecidableEq Expr := decEq

/-- The node of a name and its operands: the built-in entry of that name, if there is one, takes
exactly its own number of operands. -/
def ofName (name : String) (operands : List Expr) : Except Error Expr :=
  match Operator.find? name with
  | none => .ok (.call name operands)
  | some op =>
    if operands.length = op.arity then .ok (.operator op operands)
    else .error (.wrongArity name op.arity operands.length)

/-- The node of an operator between two operands. A question mark whose right side is a colon
node takes over the operands of that node, in parentheses or not. -/
def ofInfix (op : Operator) (left right : Expr) : Expr :=
  match op, right with
  | .question, .operator .colon branches => .operator .conditional (left :: branches)
  | op, right => .operator op [left, right]

end Expr

end Reckon
