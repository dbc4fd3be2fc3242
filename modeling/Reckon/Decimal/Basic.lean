import Reckon.Number.Basic
set_option autoImplicit false

namespace Reckon

def pow10 (n : Nat) : Nat := Nat.pow 10 n

/-- The number `digits * 10 ^ exponent`. -/
structure Decimal where
  digits : Nat
  exponent : Int
deriving DecidableEq

namespace Decimal

def ratio (d : Decimal) : Nat × Nat :=
  if d.exponent < 0 then (d.digits * one, pow10 d.exponent.natAbs)
  else (d.digits * pow10 d.exponent.natAbs * one, 1)

/-- The value nearest to a decimal. From the exponent 310 on every decimal but zero is infinite,
and below the second bound even the whole of its digits makes less than half a unit, so neither
power of ten is ever built. -/
def nearest (d : Decimal) : Number :=
  if d.digits = 0 then Number.zero false
  else if 310 ≤ d.exponent then .infinite false
  else if d.exponent + (Nat.log2 d.digits : Int) < -400 then Number.zero false
  else Number.ofRatio false d.ratio.1 d.ratio.2

def readNatural? (cs : List Char) : Option Nat :=
  if cs.isEmpty || !cs.all Char.isDigit then none else some (Nat.ofDigitChars 10 cs 0)

def readExponent? : List Char → Option Int
  | [] => some 0
  | 'e' :: '-' :: cs => (readNatural? cs).map fun n => -(n : Int)
  | 'e' :: '+' :: cs => (readNatural? cs).map fun n => (n : Int)
  | 'e' :: cs => (readNatural? cs).map fun n => (n : Int)
  | _ => none

def read? (cs : List Char) : Option Decimal :=
  let whole := cs.takeWhile Char.isDigit
  let rest := cs.dropWhile Char.isDigit
  let pointed := rest.head? == some '.'
  let fraction := if pointed then rest.tail.takeWhile Char.isDigit else []
  let tail := if pointed then rest.tail.dropWhile Char.isDigit else rest
  if whole.isEmpty && fraction.isEmpty then none
  else
    (readExponent? tail).map fun e =>
      ⟨Nat.ofDigitChars 10 (whole ++ fraction) 0, e - (fraction.length : Int)⟩

end Decimal

end Reckon
