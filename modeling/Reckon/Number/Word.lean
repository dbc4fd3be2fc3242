import Reckon.Number.Arithmetic
set_option autoImplicit false

namespace Reckon

abbrev Word := BitVec 64

namespace Word

def saturate (i : Int) : Word :=
  if i < BitVec.toInt (BitVec.intMin 64) then BitVec.intMin 64
  else if BitVec.toInt (BitVec.intMax 64) < i then BitVec.intMax 64
  else BitVec.ofInt 64 i

/-- The shift amount that a word stands for. Every word outside 0 to 63, a negative one too,
shifts all 64 bits out. -/
def amount (w : Word) : Nat := if w.toNat < 64 then w.toNat else 64

end Word

namespace Number

/-- The value cut toward zero and held to the range of a word; a not-a-number gives zero. -/
def toWord : Number → Word
  | .nan => 0
  | .infinite negative => if negative then BitVec.intMin 64 else BitVec.intMax 64
  | .finite negative units _ => Word.saturate (signed negative (units / one))

def ofWord (w : Word) : Number := ofInt w.toInt

def bitAnd (x y : Number) : Number := ofWord (x.toWord &&& y.toWord)

def bitOr (x y : Number) : Number := ofWord (x.toWord ||| y.toWord)

def bitXor (x y : Number) : Number := ofWord (x.toWord ^^^ y.toWord)

def bitNot (x : Number) : Number := ofWord (~~~x.toWord)

def shiftLeft (x y : Number) : Number := ofWord (x.toWord <<< y.toWord.amount)

def shiftRight (x y : Number) : Number := ofWord (x.toWord.sshiftRight y.toWord.amount)

def shiftRightLogical (x y : Number) : Number := ofWord (x.toWord >>> y.toWord.amount)

def toUnsigned (width : Nat) (x : Number) : Number := ofInt ((x.toWord.setWidth width).toNat : Int)

def toSigned (width : Nat) (x : Number) : Number := ofInt (x.toWord.setWidth width).toInt

end Number

end Reckon
