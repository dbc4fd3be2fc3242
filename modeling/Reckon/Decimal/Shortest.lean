import Reckon.Decimal.Basic
/-!
The decimal by which a magnitude is written: the one with the fewest digits among those that
read back as it, and the nearest to it of these. The decimals with so many digits are the points
of a grid, and a grid has a point that reads back only if one of the magnitude's two neighbours
on it does, so the coarsest grid with such a neighbour is looked for.
-/
set_option autoImplicit false

namespace Reckon.Decimal

/-- The magnitude as a multiple of the power of ten of a place, as a quotient. -/
def inPlace (units : Nat) (place : Int) : Nat × Nat :=
  if place < 0 then (units * pow10 place.natAbs, one) else (units, one * pow10 place.natAbs)

/-- The least place whose power of ten is above the magnitude. No magnitude but zero is below
`10 ^ -400`. -/
def leadingPlace (units : Nat) : Int :=
  if one ≤ units then ((Nat.toDigits 10 (units / one)).length : Int)
  else ((Nat.toDigits 10 (units * pow10 400 / one)).length : Int) - 400

def readsBack (units : Nat) (d : Decimal) : Bool :=
  match d.nearest with
  | .finite _ u _ => u == units
  | _ => false

def neighbour? (units : Nat) (place : Int) : Option Decimal :=
  let q := inPlace units place
  let near := roundQuotient q.1 q.2
  let below := q.1 / q.2
  let far := if near = below then below + 1 else below
  if readsBack units ⟨near, place⟩ then some ⟨near, place⟩
  else if readsBack units ⟨far, place⟩ then some ⟨far, place⟩
  else none

def exact (units : Nat) : Decimal := ⟨units * Nat.pow 5 1074, -1074⟩

/-- The first neighbour that reads back on so many grids from a place on, each ten times as
fine as the one before it. -/
def coarsest (units : Nat) : Nat → Int → Decimal
  | 0, _ => exact units
  | grids + 1, place =>
    match neighbour? units place with
    | some d => d
    | none => coarsest units grids (place - 1)

def shortest (units : Nat) : Decimal := coarsest units 18 (leadingPlace units)

end Reckon.Decimal
