import Reckon.Number.Arithmetic
set_option autoImplicit false

namespace Reckon.Number

def magnitudeBits (units : Nat) : Nat :=
  if units < leastNormal then units
  else
    let place := lastPlace units
    (place + 1) * pow2 52 + (units / pow2 place - pow2 52)

def toBits : Number → UInt64
  | .nan => UInt64.ofNat (2047 * pow2 52 + pow2 51)
  | .infinite negative => UInt64.ofNat ((if negative then pow2 63 else 0) + 2047 * pow2 52)
  | .finite negative units _ =>
    UInt64.ofNat ((if negative then pow2 63 else 0) + magnitudeBits units)

theorem representable_of_fields {exponent fraction : Nat} (he : exponent < 2047)
    (hf : fraction < pow2 52) :
    Representable (if exponent = 0 then fraction
      else (pow2 52 + fraction) * pow2 (exponent - 1)) := by
  have h53 : pow2 53 = 2 * pow2 52 := pow2_succ 52
  split
  · exact representable_of_lt (by omega)
  · exact ⟨pow2 52 + fraction, exponent - 1, by omega, by omega, rfl⟩

def ofBits (bits : UInt64) : Number :=
  let negative := decide (pow2 63 ≤ bits.toNat)
  let exponent := bits.toNat / pow2 52 % 2048
  let fraction := bits.toNat % pow2 52
  if h : exponent < 2047 then
    .finite negative _ (representable_of_fields h (Nat.mod_lt bits.toNat (pow2_pos 52)))
  else if fraction = 0 then .infinite negative
  else .nan

def viaMachine (f : Float → Float) (x : Number) : Number :=
  ofBits (f (Float.ofBits x.toBits)).toBits

def viaMachine₂ (f : Float → Float → Float) (x y : Number) : Number :=
  ofBits (f (Float.ofBits x.toBits) (Float.ofBits y.toBits)).toBits

def exp : Number → Number := flushed (viaMachine Float.exp)
def ln : Number → Number := flushed (viaMachine Float.log)

/-- A logarithm to another base is the natural one times a reciprocal that is itself rounded, so
that of a power of the base can miss the exponent by its last digit. -/
def logToBase (base : Nat) (x : Number) : Number :=
  x.ln.mul ((ofInt 1).div (ofInt base).ln)

def log10 : Number → Number := logToBase 10
def log2 : Number → Number := logToBase 2
def sin : Number → Number := viaMachine Float.sin
def cos : Number → Number := flushed (viaMachine Float.cos)
def tan : Number → Number := viaMachine Float.tan

/-- The angle under which the point with these coordinates is seen from the origin. To the right
of the origin it is a zero where the quotient of the coordinates is. -/
def angle (y x : Number) : Number :=
  let slope := y.div x
  if slope.isZero && !x.isNegative then slope else flushed₂ (viaMachine₂ Float.atan2) y x

def otherLeg (x : Number) : Number := (((ofInt 1).sub x).mul ((ofInt 1).add x)).sqrt

def asin (x : Number) : Number :=
  let halfAngle := angle x ((ofInt 1).add (otherLeg x))
  halfAngle.add halfAngle

def acos (x : Number) : Number := angle (otherLeg x) x

def atan (x : Number) : Number := angle x (ofInt 1)

def halfExp (x : Number) : Number := (x.add (ln half)).exp

/-- From one on this is the difference of two exponentials, which would cancel before. -/
def sinh (x : Number) : Number :=
  if x.abs.less (ofInt 1) then flushed (viaMachine Float.sinh) x
  else x.halfExp.sub x.negate.halfExp

def cosh (x : Number) : Number := x.halfExp.add x.negate.halfExp

def tanh : Number → Number := flushed (viaMachine Float.tanh)
def asinh : Number → Number := flushed (viaMachine Float.asinh)
def acosh : Number → Number := flushed (viaMachine Float.acosh)
def atanh : Number → Number := flushed (viaMachine Float.atanh)

/-- A power. A base below the normal magnitudes counts as half the smallest magnitude, whatever
its digits; the exponent is seen as it is. -/
def power (x y : Number) : Number :=
  let exact := viaMachine₂ Float.pow
  if x.flush = x then (exact x y).flush
  else (exact (smallest x.isNegative) y).mul (exact half y)

def euler : Number := ofBits 0x4005BF0A8B145769

def pi : Number := ofBits 0x400921FB54442D18

end Reckon.Number
