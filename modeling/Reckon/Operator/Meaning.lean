import Reckon.Operator.Basic
import Reckon.Number.Word
import Reckon.Number.Elementary
/-!
What the built-in entries compute. Arithmetic and comparisons take a magnitude below the normal
ones for a zero and yield no such magnitude; the remainder, a change of sign and a choice see it
as it is.
-/
set_option autoImplicit false

namespace Reckon

/-- How an entry gets its value. A choice picks one of its operands by the value of the first:
zero stands for that value itself, and the operands not picked are never evaluated. A structural
entry has no value. -/
inductive Meaning where
  | constant (value : Number)
  | unary (apply : Number → Number)
  | binary (apply : Number → Number → Number)
  | choice (choose : Number → Nat)
  | structural

namespace Number

def compared (f : Number → Number → Bool) (x y : Number) : Number := ofBool (f x.flush y.flush)

def logicalNot (x : Number) : Number := ofBool x.flush.isZero

def isTrue (x : Number) : Bool := !x.isZero

end Number

namespace Operator

def meaning : Operator → Meaning
  | .openParen | .closeParen | .assign | .question | .colon | .terminator => .structural
  | .logicalOr => .choice fun x => if x.isTrue then 0 else 1
  | .logicalAnd => .choice fun x => if x.isTrue then 1 else 0
  | .conditional => .choice fun x => if x.isTrue then 1 else 2
  | .bitOr => .binary Number.bitOr
  | .bitXor => .binary Number.bitXor
  | .bitAnd => .binary Number.bitAnd
  | .shiftLeft => .binary Number.shiftLeft
  | .shiftRight => .binary Number.shiftRight
  | .shiftRightLogical => .binary Number.shiftRightLogical
  | .bitNot => .unary Number.bitNot
  | .equal => .binary (Number.compared Number.equal)
  | .notEqual => .binary (Number.compared fun x y => !x.equal y)
  | .less => .binary (Number.compared Number.less)
  | .greater => .binary (Number.compared fun x y => y.less x)
  | .lessEqual => .binary (Number.compared Number.lessEqual)
  | .greaterEqual => .binary (Number.compared fun x y => y.lessEqual x)
  | .add => .binary (Number.flushed₂ Number.add)
  | .subtract => .binary (Number.flushed₂ Number.sub)
  | .multiply => .binary (Number.flushed₂ Number.mul)
  | .divide => .binary (Number.flushed₂ Number.div)
  | .remainder => .binary Number.flooredRemainder
  | .power => .binary Number.power
  | .logicalNot => .unary Number.logicalNot
  | .negate => .unary Number.negate
  | .maximum => .binary (Number.flushed₂ Number.larger)
  | .minimum => .binary (Number.flushed₂ Number.smaller)
  | .sqrt => .unary (Number.flushed Number.sqrt)
  | .exp => .unary Number.exp
  | .ln => .unary Number.ln
  | .log => .unary Number.log10
  | .log2 => .unary Number.log2
  | .abs => .unary Number.abs
  | .ceil => .unary (Number.flushed Number.ceil)
  | .floor => .unary (Number.flushed Number.floor)
  | .round => .unary Number.roundHalfAway
  | .sin => .unary Number.sin
  | .cos => .unary Number.cos
  | .tan => .unary Number.tan
  | .asin => .unary Number.asin
  | .acos => .unary Number.acos
  | .atan => .unary Number.atan
  | .sinh => .unary Number.sinh
  | .cosh => .unary Number.cosh
  | .tanh => .unary Number.tanh
  | .asinh => .unary Number.asinh
  | .acosh => .unary Number.acosh
  | .atanh => .unary Number.atanh
  | .i8 => .unary (Number.toSigned 8)
  | .u8 => .unary (Number.toUnsigned 8)
  | .i16 => .unary (Number.toSigned 16)
  | .u16 => .unary (Number.toUnsigned 16)
  | .i32 => .unary (Number.toSigned 32)
  | .u32 => .unary (Number.toUnsigned 32)
  | .euler => .constant Number.euler
  | .pi => .constant Number.pi

end Operator

end Reckon
