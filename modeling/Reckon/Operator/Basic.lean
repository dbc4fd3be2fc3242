set_option autoImplicit false

namespace Reckon

/-- How tightly an operator binds, the loosest first. `call` is for the entries that are written
only as calls and never stand between operands. -/
inductive Precedence where
  | call | brace | terminator | assign | ternary | logicalOr | logicalAnd | bitOr | bitXor
  | bitAnd | equality | order | shift | addition | multiplication | unary | power
deriving DecidableEq

def Precedence.level : Precedence → Nat
  | .call => 0
  | .brace => 1
  | .terminator => 2
  | .assign => 3
  | .ternary => 4
  | .logicalOr => 5
  | .logicalAnd => 6
  | .bitOr => 7
  | .bitXor => 8
  | .bitAnd => 9
  | .equality => 10
  | .order => 11
  | .shift => 12
  | .addition => 13
  | .multiplication => 14
  | .unary => 15
  | .power => 16

/-- The built-in entries. The last three have no place in the registry: unary minus, the
condition with both of its branches, and the end of a statement. -/
inductive Operator where
  | openParen | closeParen | assign | question | colon | logicalOr | logicalAnd | bitOr | bitXor
  | bitAnd | shiftLeft | shiftRight | shiftRightLogical | bitNot | equal | notEqual | less
  | greater | lessEqual | greaterEqual | add | subtract | multiply | divide | remainder | power
  | logicalNot | maximum | minimum | sqrt | exp | ln | log | log2 | abs | ceil | floor | round
  | sin | cos | tan | asin | acos | atan | sinh | cosh | tanh | asinh | acosh | atanh | i8 | u8
  | i16 | u16 | i32 | u32 | euler | pi | negate | conditional | terminator
deriving DecidableEq

namespace Operator

structure Entry where
  name : String
  precedence : Precedence
  arity : Nat
  rightAssociative : Bool
  help : String

def entry : Operator → Entry
  | .openParen => ⟨"(", .brace, 0, false, "open a group or argument list"⟩
  | .closeParen => ⟨")", .brace, 0, false, "close a group or argument list"⟩
  | .assign => ⟨"=", .assign, 2, true, "define a function: f(x) = body"⟩
  | .question => ⟨"?", .ternary, 2, true, "ternary condition: c ? a : b"⟩
  | .colon => ⟨":", .ternary, 2, true, "ternary alternative: c ? a : b"⟩
  | .logicalOr => ⟨"||", .logicalOr, 2, false,
      "logical or, skips the right operand when the left is non-zero"⟩
  | .logicalAnd => ⟨"&&", .logicalAnd, 2, false,
      "logical and, skips the right operand when the left is zero"⟩
  | .bitOr => ⟨"|", .bitOr, 2, false, "bitwise or"⟩
  | .bitXor => ⟨"^^", .bitXor, 2, false, "bitwise exclusive or"⟩
  | .bitAnd => ⟨"&", .bitAnd, 2, false, "bitwise and"⟩
  | .shiftLeft => ⟨"<<", .shift, 2, false, "shift left"⟩
  | .shiftRight => ⟨">>", .shift, 2, false, "arithmetic shift right"⟩
  | .shiftRightLogical => ⟨">>>", .shift, 2, false, "logical shift right"⟩
  | .bitNot => ⟨"~", .unary, 1, true, "bitwise not"⟩
  | .equal => ⟨"==", .equality, 2, false, "equal"⟩
  | .notEqual => ⟨"!=", .equality, 2, false, "not equal"⟩
  | .less => ⟨"<", .order, 2, false, "less than"⟩
  | .greater => ⟨">", .order, 2, false, "greater than"⟩
  | .lessEqual => ⟨"<=", .order, 2, false, "less than or equal"⟩
  | .greaterEqual => ⟨">=", .order, 2, false, "greater than or equal"⟩
  | .add => ⟨"+", .addition, 2, false, "addition"⟩
  | .subtract => ⟨"-", .addition, 2, false, "subtraction or negation"⟩
  | .multiply => ⟨"*", .multiplication, 2, false, "multiplication"⟩
  | .divide => ⟨"/", .multiplication, 2, false, "division"⟩
  | .remainder => ⟨"%", .multiplication, 2, false,
      "floored remainder, x - y * floor(x / y), sign follows the divisor"⟩
  | .power => ⟨"^", .power, 2, true, "power"⟩
  | .logicalNot => ⟨"!", .unary, 1, true, "logical not"⟩
  | .maximum => ⟨"max", .call, 2, false, "larger of two values"⟩
  | .minimum => ⟨"min", .call, 2, false, "smaller of two values"⟩
  | .sqrt => ⟨"sqrt", .call, 1, false, "square root"⟩
  | .exp => ⟨"exp", .call, 1, false, "e raised to x"⟩
  | .ln => ⟨"ln", .call, 1, false, "natural logarithm"⟩
  | .log => ⟨"log", .call, 1, false, "base 10 logarithm"⟩
  | .log2 => ⟨"log2", .call, 1, false, "base 2 logarithm"⟩
  | .abs => ⟨"abs", .call, 1, false, "absolute value"⟩
  | .ceil => ⟨"ceil", .call, 1, false, "round up"⟩
  | .floor => ⟨"floor", .call, 1, false, "round down"⟩
  | .round => ⟨"round", .call, 1, false, "round to nearest, halves away from zero"⟩
  | .sin => ⟨"sin", .call, 1, false, "sine"⟩
  | .cos => ⟨"cos", .call, 1, false, "cosine"⟩
  | .tan => ⟨"tan", .call, 1, false, "tangent"⟩
  | .asin => ⟨"asin", .call, 1, false, "inverse sine"⟩
  | .acos => ⟨"acos", .call, 1, false, "inverse cosine"⟩
  | .atan => ⟨"atan", .call, 1, false, "inverse tangent"⟩
  | .sinh => ⟨"sinh", .call, 1, false, "hyperbolic sine"⟩
  | .cosh => ⟨"cosh", .call, 1, false, "hyperbolic cosine"⟩
  | .tanh => ⟨"tanh", .call, 1, false, "hyperbolic tangent"⟩
  | .asinh => ⟨"asinh", .call, 1, false, "inverse hyperbolic sine"⟩
  | .acosh => ⟨"acosh", .call, 1, false, "inverse hyperbolic cosine"⟩
  | .atanh => ⟨"atanh", .call, 1, false, "inverse hyperbolic tangent"⟩
  | .i8 => ⟨"i8", .call, 1, false, "wrap to signed 8 bit"⟩
  | .u8 => ⟨"u8", .call, 1, false, "wrap to unsigned 8 bit"⟩
  | .i16 => ⟨"i16", .call, 1, false, "wrap to signed 16 bit"⟩
  | .u16 => ⟨"u16", .call, 1, false, "wrap to unsigned 16 bit"⟩
  | .i32 => ⟨"i32", .call, 1, false, "wrap to signed 32 bit"⟩
  | .u32 => ⟨"u32", .call, 1, false, "wrap to unsigned 32 bit"⟩
  | .euler => ⟨"e", .call, 0, false, "Euler's number"⟩
  | .pi => ⟨"pi", .call, 0, false, "ratio of circumference to diameter"⟩
  | .negate => ⟨"-", .unary, 1, true, "negation"⟩
  | .conditional => ⟨"?:", .ternary, 3, true, "conditional"⟩
  | .terminator => ⟨"<end>", .terminator, 0, false, "end of input"⟩

def name (op : Operator) : String := op.entry.name

def precedence (op : Operator) : Precedence := op.entry.precedence

def arity (op : Operator) : Nat := op.entry.arity

def rightAssociative (op : Operator) : Bool := op.entry.rightAssociative

def help (op : Operator) : String := op.entry.help

def isUnary (op : Operator) : Bool := op.arity == 1

def isCall (op : Operator) : Bool := op.precedence == .call

def table : List Operator :=
  [.openParen, .closeParen, .assign, .question, .colon, .logicalOr, .logicalAnd, .bitOr, .bitXor,
   .bitAnd, .shiftLeft, .shiftRight, .shiftRightLogical, .bitNot, .equal, .notEqual, .less,
   .greater, .lessEqual, .greaterEqual, .add, .subtract, .multiply, .divide, .remainder, .power,
   .logicalNot, .maximum, .minimum, .sqrt, .exp, .ln, .log, .log2, .abs, .ceil, .floor, .round,
   .sin, .cos, .tan, .asin, .acos, .atan, .sinh, .cosh, .tanh, .asinh, .acosh, .atanh, .i8, .u8,
   .i16, .u16, .i32, .u32, .euler, .pi]

end Operator

end Reckon
