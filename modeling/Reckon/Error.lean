set_option autoImplicit false

namespace Reckon

/-- A numeric literal that is no number: its text as far as it was read, and where it starts. -/
inductive LexicalError where
  /-- The characters of a decimal numeral in no possible order. -/
  | invalidConstant (text : String) (start : Nat)
  /-- A whole number written in a base, too large for 32 bits at the last digit of the text. -/
  | overflow (base : Nat) (text : String) (start : Nat)
deriving DecidableEq

namespace LexicalError

def text : LexicalError → String
  | .invalidConstant text _ => text
  | .overflow _ text _ => text

def start : LexicalError → Nat
  | .invalidConstant _ start => start
  | .overflow _ _ start => start

def message : LexicalError → String
  | .invalidConstant text _ => "Invalid numeric constant '" ++ text ++ "'."
  | .overflow base _ _ => "Base " ++ base.repr ++ " constant overflowed 32 bit range."

end LexicalError

inductive Misplacement where
  /-- A value directly after another. -/
  | expectingOperator (got : String)
  | unaryOperandMissing
  | binaryOperandMissing
  /-- A value directly before a parenthesis that opens a group. -/
  | openParenthesis
  /-- An empty group. -/
  | closeParenthesis
  | tooManyCloseParentheses
  /-- A statement or an argument that ends too early. -/
  | endOfInput
deriving DecidableEq

def Misplacement.message : Misplacement → String
  | .expectingOperator got => "Expecting operator but got " ++ got ++ "."
  | .unaryOperandMissing => "Unary operator is missing an operand."
  | .binaryOperandMissing => "Binary operator is missing an operand."
  | .openParenthesis => "Unexpected open parenthesis."
  | .closeParenthesis => "Unexpected close parenthesis."
  | .tooManyCloseParentheses => "Too many close parentheses."
  | .endOfInput => "Unexpected end of input."

inductive Error where
  | lexical (error : LexicalError)
  /-- The position is that of the token at which it was noticed; there is none at the end of a
  statement. -/
  | misplaced (what : Misplacement) (position : Option Nat)
  | wrongArity (name : String) (expected got : Nat)
  | unknownName (name : String)
  /-- An operator that has no value of its own. -/
  | invalidUse (operator : String)
  /-- A parameter, which is a number, applied to arguments. -/
  | parameterCalled (name : String)
  | excessiveRecursion
  /-- An operator node whose operands do not fit the operator; reading a line makes none. -/
  | malformedNode (operator : String)
deriving DecidableEq

def Error.message : Error → String
  | .lexical error => error.message
  | .misplaced what _ => what.message
  | .wrongArity name expected got =>
    "Wrong number of arguments for " ++ name ++ "(): expected " ++ expected.repr ++
      " but got " ++ got.repr ++ "."
  | .unknownName name => "Unknown value " ++ name ++ "."
  | .invalidUse operator => "Invalid use of " ++ operator ++ " operator."
  | .parameterCalled name => "Use of " ++ name ++ "() as first class function is not supported."
  | .excessiveRecursion => "Excessive recursion."
  | .malformedNode operator => "Wrong number of operands of " ++ operator ++ "."

end Reckon
