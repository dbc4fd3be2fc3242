import Reckon.Expr.Basic
import Reckon.Decimal.Notation
import Reckon.Limit
set_option autoImplicit false

namespace Reckon.Expr

mutual

def render : Expr → List Char
  | .constant value => value.display
  | .operator op operands => op.name.toList ++ renderOperands operands
  | .call name operands => name.toList ++ renderOperands operands

def renderOperands : List Expr → List Char
  | [] => []
  | e :: es => '(' :: (render e ++ renderFurther es)

def renderFurther : List Expr → List Char
  | [] => [')']
  | e :: es => ',' :: (render e ++ renderFurther es)

end

mutual

/-- Whether no path from the root has more than so many nodes. -/
def fits : Nat → Expr → Bool
  | 0, _ => false
  | _ + 1, .constant _ => true
  | depth + 1, .operator _ operands => allFit depth operands
  | depth + 1, .call _ operands => allFit depth operands

def allFit : Nat → List Expr → Bool
  | _, [] => true
  | depth, e :: es => fits depth e && allFit depth es

end

def text [Stack] (e : Expr) : Except Error String :=
  if e.fits Stack.printing then .ok (String.ofList e.render) else .error .excessiveRecursion

end Reckon.Expr
