import Reckon.Number.Basic
/-!
The arithmetic of binary64: each operation is the exact result on units followed by one rounding
to the nearest value. A negative magnitude is an integer below zero here, except that a zero
keeps its own sign. A magnitude below the normal ones can be flushed to a zero; no product and no
quotient has one.
-/
set_option autoImplicit false

namespace Reckon.Number

/-- A magnitude below the normal ones becomes a zero of the same sign. -/
def flush : Number → Number
  | .finite negative units h =>
    if units < leastNormal then zero negative else .finite negative units h
  | x => x

def flushed (f : Number → Number) (x : Number) : Number := (f x.flush).flush

def flushed₂ (f : Number → Number → Number) (x y : Number) : Number := (f x.flush y.flush).flush

def signed (negative : Bool) (units : Nat) : Int :=
  if negative then -(units : Int) else (units : Int)

/-- The sum of opposite values is a positive zero; only two negative zeros add up to one. -/
def add : Number → Number → Number
  | .nan, _ => .nan
  | _, .nan => .nan
  | .infinite a, .infinite b => if a = b then .infinite a else .nan
  | .infinite a, .finite _ _ _ => .infinite a
  | .finite _ _ _, .infinite b => .infinite b
  | .finite a u _, .finite b v _ =>
    let sum := signed a u + signed b v
    if sum = 0 then zero (a && b) else ofRatio (decide (sum < 0)) sum.natAbs 1

def sub (x y : Number) : Number := x.add y.negate

def mul : Number → Number → Number
  | .nan, _ => .nan
  | _, .nan => .nan
  | .infinite a, .infinite b => .infinite (a ^^ b)
  | .infinite a, .finite b v _ => if v = 0 then .nan else .infinite (a ^^ b)
  | .finite a u _, .infinite b => if u = 0 then .nan else .infinite (a ^^ b)
  | .finite a u _, .finite b v _ => ofNormalRatio (a ^^ b) (u * v) one

def div : Number → Number → Number
  | .nan, _ => .nan
  | _, .nan => .nan
  | .infinite _, .infinite _ => .nan
  | .infinite a, .finite b _ _ => .infinite (a ^^ b)
  | .finite a _ _, .infinite b => zero (a ^^ b)
  | .finite a u _, .finite b v _ =>
    if v = 0 then (if u = 0 then .nan else .infinite (a ^^ b))
    else ofNormalRatio (a ^^ b) (u * one) v

def equal : Number → Number → Bool
  | .nan, _ => false
  | _, .nan => false
  | .infinite a, .infinite b => a == b
  | .finite a u _, .finite b v _ => signed a u == signed b v
  | _, _ => false

def less : Number → Number → Bool
  | .nan, _ => false
  | _, .nan => false
  | .infinite a, .infinite b => a && !b
  | .infinite a, .finite _ _ _ => a
  | .finite _ _ _, .infinite b => !b
  | .finite a u _, .finite b v _ => decide (signed a u < signed b v)

def lessEqual (x y : Number) : Bool := x.less y || x.equal y

def larger : Number → Number → Number
  | .nan, _ => .nan
  | _, .nan => .nan
  | x, y => if x.less y || (x.equal y && x.isNegative) then y else x

def smaller : Number → Number → Number
  | .nan, _ => .nan
  | _, .nan => .nan
  | x, y => if y.less x || (x.equal y && y.isNegative) then y else x

/-- The remainder of the quotient cut toward zero: it has the sign of the dividend, and it is
exact, also below the normal magnitudes. A divisor below them counts as a zero. -/
def truncatedRemainder : Number → Number → Number
  | .nan, _ => .nan
  | _, .nan => .nan
  | .infinite _, _ => .nan
  | .finite a u h, .infinite _ => .finite a u h
  | .finite a u _, .finite _ v _ => if v < leastNormal then .nan else ofRatio a (u % v) 1

/-- The remainder with the sign of the divisor: the divisor is added to a truncated remainder
of the other sign. A zero keeps the sign of the dividend, and so does a remainder below the
normal magnitudes, which is taken for a zero here. -/
def flooredRemainder (x y : Number) : Number :=
  let r := truncatedRemainder x y
  if !r.flush.isZero && (r.isNegative != y.isNegative) then flushed₂ add r y else r

def floorRoot (n : Nat) : Nat :=
  if h : n = 0 then 0
  else
    let r := 2 * floorRoot (n / 4)
    if (r + 1) * (r + 1) ≤ n then r + 1 else r
termination_by n
decreasing_by omega

/-- The square root. The floor of the exact root tells the nearest value once it is known
whether the root is exact: an inexact one stands half a unit above its floor. -/
def sqrt : Number → Number
  | .nan => .nan
  | .infinite negative => if negative then .nan else .infinite false
  | .finite negative units _ =>
    if units = 0 then zero negative
    else if negative then .nan
    else
      let square := units * one
      let root := floorRoot square
      ofRatio false (if root * root = square then 2 * root else 2 * root + 1) 2

def wholePart (up : Bool) (units : Nat) : Nat :=
  if up && units % one != 0 then units / one + 1 else units / one

def ceil : Number → Number
  | .finite negative units _ => ofRatio negative (wholePart (!negative) units * one) 1
  | x => x

def floor : Number → Number
  | .finite negative units _ => ofRatio negative (wholePart negative units * one) 1
  | x => x

def trunc : Number → Number
  | .finite negative units _ => ofRatio negative (wholePart false units * one) 1
  | x => x

def sign : Number → Number
  | .nan => .nan
  | .infinite negative => ofRatio negative one 1
  | .finite negative units _ => if units = 0 then zero negative else ofRatio negative one 1

/-- The nearest whole number, and of two the one farther from zero: what is cut off by `trunc` is
half of one at least, or the whole part stays as it is. A zero keeps the sign. -/
def roundHalfAway (x : Number) : Number :=
  let whole := x.trunc
  if lessEqual half (flushed₂ sub x whole).abs then flushed₂ add whole x.sign else whole

end Reckon.Number
