import Reckon.Expr.Basic
/-!
One level of a statement that is being read: the operand completed last, and the operators that
wait for their right operands. An incoming operator first lets those that bind before it take
the operand. An open parenthesis waits like an operator, and only a close parenthesis ends it.
-/
set_option autoImplicit false

namespace Reckon

/-- Whether a waiting operator takes its right operand before the incoming operator may use it.
A unary operator starts an operand, so it lets only unary ones go first; of two that bind
equally the waiting one goes first if it groups to the left. -/
def Operator.takesFirst (waiting incoming : Operator) : Bool :=
  if !waiting.isUnary && incoming.isUnary then false
  else if waiting.rightAssociative then
    decide (incoming.precedence.level < waiting.precedence.level)
  else decide (incoming.precedence.level < waiting.precedence.level + 1)

structure Waiting where
  op : Operator
  left : Option Expr

namespace Waiting

def complete (w : Waiting) (right : Expr) : Except Misplacement Expr :=
  match w.op.arity, w.left with
  | 1, none => .ok (.operator w.op [right])
  | 1, some _ => .error .unaryOperandMissing
  | 2, some left => .ok (Expr.ofInfix w.op left right)
  | 2, none => .error .binaryOperandMissing
  | _, _ => .error .openParenthesis

def withoutOperand (w : Waiting) : Misplacement :=
  match w.op.arity with
  | 1 => .unaryOperandMissing
  | 2 => .binaryOperandMissing
  | _ => if w.op = .openParen ∧ w.left.isNone then .closeParenthesis else .openParenthesis

end Waiting

/-- The waiting operators come innermost first. -/
structure Level where
  operand : Option Expr
  waiting : List Waiting

/-- What is left when no further waiting operator binds before the incoming one, and whether a
group ended. -/
structure Settled where
  operand : Expr
  waiting : List Waiting
  closed : Bool

def settle (incoming : Operator) : Expr → List Waiting → Except Misplacement Settled
  | operand, [] => .ok ⟨operand, [], false⟩
  | operand, w :: ws =>
    if w.op.takesFirst incoming then
      if w.op.arity = 0 then
        if w.op = .openParen ∧ w.left.isNone then .ok ⟨operand, ws, true⟩
        else .error .openParenthesis
      else
        match w.complete operand with
        | .ok e => settle incoming e ws
        | .error m => .error m
    else .ok ⟨operand, w :: ws, false⟩

namespace Level

def empty : Level := ⟨none, []⟩

def inGroup (l : Level) : Bool := l.waiting.any fun w => w.op == .openParen

/-- Takes in an operator. A minus sign without an operand before it is a sign change. -/
def push (l : Level) (op : Operator) : Except Misplacement Level :=
  match l.operand with
  | none =>
    let op := if op = .subtract then .negate else op
    match l.waiting with
    | w :: ws =>
      if op ≠ .openParen ∧ w.op.takesFirst op = true then .error w.withoutOperand
      else if op = .closeParen then .error .tooManyCloseParentheses
      else .ok ⟨none, ⟨op, none⟩ :: w :: ws⟩
    | [] =>
      if op = .closeParen then .error .tooManyCloseParentheses else .ok ⟨none, [⟨op, none⟩]⟩
  | some operand =>
    if op = .openParen then .ok ⟨none, ⟨op, some operand⟩ :: l.waiting⟩
    else
      match settle op operand l.waiting with
      | .error m => .error m
      | .ok s =>
        if s.closed then .ok ⟨some s.operand, s.waiting⟩
        else if op = .closeParen then .error .tooManyCloseParentheses
        else .ok ⟨none, ⟨op, some s.operand⟩ :: s.waiting⟩

def finish (l : Level) : Except Misplacement Expr :=
  match l.operand with
  | none => .error .endOfInput
  | some operand =>
    match settle .terminator operand l.waiting with
    | .error m => .error m
    | .ok s => if s.waiting.isEmpty then .ok s.operand else .error .endOfInput

end Level

end Reckon
