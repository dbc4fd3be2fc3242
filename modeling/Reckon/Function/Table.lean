import Reckon.Expr.Basic
import Reckon.Text.Order
set_option autoImplicit false

namespace Reckon

/-- A function of the user: what its parameters stand for in the body is told by each call. -/
structure Formula where
  parameters : List String
  body : Expr
deriving DecidableEq

def Formula.signature (f : Formula) (name : String) : String :=
  name ++ "(" ++ String.intercalate ", " f.parameters ++ ")"

structure FunctionTable where
  entries : List (String × Formula)
  sorted : Text.Sorted entries

namespace FunctionTable

def empty : FunctionTable := ⟨[], List.Pairwise.nil⟩

def find? (table : FunctionTable) (name : String) : Option Formula :=
  Text.lookup? name table.entries

def define (table : FunctionTable) (name : String) (f : Formula) : FunctionTable :=
  ⟨Text.insertByName name f table.entries, table.sorted.insertByName name f⟩

def names (table : FunctionTable) : List String := table.entries.map Prod.fst

theorem find?_define (table : FunctionTable) (name : String) (f : Formula)
    (other : String) :
    (table.define name f).find? other = if name = other then some f else table.find? other :=
  Text.lookup_insertByName name f table.entries other

end FunctionTable

structure Definition where
  name : String
  formula : Formula
deriving DecidableEq

def Expr.bareName? : Expr → Option String
  | .call name [] => some name
  | _ => none

/-- What a statement defines: an equation does whose left side is a name, applied to bare names
or to nothing. -/
def Expr.definition? : Expr → Option Definition
  | .operator .assign [.call name operands, body] =>
    (operands.mapM Expr.bareName?).map fun parameters => ⟨name, ⟨parameters, body⟩⟩
  | _ => none

end Reckon
