import Reckon.Decimal.Shortest
set_option autoImplicit false

namespace Reckon

namespace Decimal

def exponentText (e : Int) : List Char :=
  let ds := Nat.toDigits 10 e.natAbs
  (if e < 0 then '-' else '+') :: (if ds.length < 2 then '0' :: ds else ds)

def scientific (ds : List Char) (e : Int) : List Char :=
  ds.take 1 ++ (if ds.length ≤ 1 then [] else '.' :: ds.drop 1) ++ 'e' :: exponentText e

/-- The point stands after so many of the digits, with a zero on a side that has none. -/
def positional (ds : List Char) (point : Int) : List Char :=
  if point ≤ 0 then '0' :: '.' :: List.replicate point.natAbs '0' ++ ds
  else
    let whole := ds.take point.natAbs
    let fraction := ds.drop point.natAbs
    whole ++ List.replicate (point.natAbs - whole.length) '0' ++
      '.' :: (if fraction.isEmpty then ['0'] else fraction)

/-- The exponent of the first digit decides: from -4 to 15 the notation is positional. -/
def text (d : Decimal) : List Char :=
  let ds := Nat.toDigits 10 d.digits
  let point := d.exponent + (ds.length : Int)
  if -4 < point ∧ point ≤ 16 then positional ds point else scientific ds (point - 1)

end Decimal

namespace Number

def signText (negative : Bool) : List Char := if negative then ['-'] else []

def magnitudeText (units : Nat) : List Char :=
  if units = 0 then ['0', '.', '0'] else (Decimal.shortest units).text

def written : Number → List Char
  | .nan => ['n', 'a', 'n']
  | .infinite negative => signText negative ++ ['i', 'n', 'f']
  | .finite negative units _ => signText negative ++ magnitudeText units

def displayedWhole? : Number → Option Int
  | .finite negative units _ =>
    if units % one = 0 ∧ units / one < pow10 16 then
      some (if negative then -((units / one : Nat) : Int) else ((units / one : Nat) : Int))
    else none
  | _ => none

def display (x : Number) : List Char :=
  match x with
  | .nan => ['N', 'a', 'N']
  | x =>
    match x.displayedWhole? with
    | some i => signText (decide (i < 0)) ++ Nat.toDigits 10 i.natAbs
    | none => x.written

end Number

end Reckon
