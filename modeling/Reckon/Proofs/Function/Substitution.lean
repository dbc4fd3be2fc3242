import Reckon.Proofs.Function.Operands
set_option autoImplicit false

namespace Reckon

namespace Expr

mutual

/-- The expression with constants for the bare names that have a value. -/
def substitute (value? : String → Option Number) : Expr → Expr
  | .constant value => .constant value
  | .operator op operands => .operator op (substituteAll value? operands)
  | .call name operands =>
    match operands.isEmpty, value? name with
    | true, some value => .constant value
    | _, _ => .call name (substituteAll value? operands)

def substituteAll (value? : String → Option Number) : List Expr → List Expr
  | [] => []
  | e :: es => substitute value? e :: substituteAll value? es

end

variable {value? : String → Option Number} {name : String} {operands : List Expr}

end Expr

section Frames

variable {table : FunctionTable} {limit : Limit} {calls depth : Nat} {parameters : List String}
  {values : List Number} {e : Expr}

end Frames

end Reckon
