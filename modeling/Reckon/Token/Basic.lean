import Reckon.Number.Basic
import Reckon.Operator.Basic
set_option autoImplicit false

namespace Reckon

inductive TokenKind where
  | number (value : Number)
  | text
  | operator (op : Operator)
deriving DecidableEq

/-- A token reaches from the position `start` to just before `stop`; the text of a quoted one
stands between its quotes. -/
structure Token where
  kind : TokenKind
  text : String
  start : Nat
  stop : Nat
deriving DecidableEq

namespace Token

def isOperator (op : Operator) (t : Token) : Bool := t.kind == .operator op

/-- A comma ends a statement or an argument, also one in quotes. -/
def isComma (t : Token) : Bool := t.kind == .text && t.text == ","

end Token

end Reckon
