set_option autoImplicit false

namespace Reckon.Text

/-- Continues the lines of a text. The complete lines come last first, and the characters of the
current line too. -/
def linesOnto (isBreak : Char → Bool) (complete : List (List Char)) (current : List Char) :
    List Char → List (List Char)
  | [] => (if current.isEmpty then complete else current.reverse :: complete).reverse
  | c :: cs =>
    if isBreak c then linesOnto isBreak (current.reverse :: complete) [] cs
    else linesOnto isBreak complete (c :: current) cs

def lines (isBreak : Char → Bool) (cs : List Char) : List (List Char) :=
  linesOnto isBreak [] [] cs

def isLineFeed (c : Char) : Bool := c.toNat == 10

/-- Everything that ends a line in a file: line feed, vertical tab, form feed, the separators of
files, groups and records, next line, and the separators of lines and paragraphs. -/
def isFileBreak (c : Char) : Bool :=
  (decide (10 ≤ c.toNat) && decide (c.toNat ≤ 12)) ||
    (decide (28 ≤ c.toNat) && decide (c.toNat ≤ 30)) ||
    c.toNat == 0x85 || c.toNat == 0x2028 || c.toNat == 0x2029

def unifyOnto (done : List Char) : List Char → List Char
  | [] => done.reverse
  | '\r' :: '\n' :: cs => unifyOnto ('\n' :: done) cs
  | '\r' :: cs => unifyOnto ('\n' :: done) cs
  | c :: cs => unifyOnto (c :: done) cs

/-- A carriage return, with the line feed after it if there is one, becomes a line feed. -/
def unifyReturns (cs : List Char) : List Char := unifyOnto [] cs

def fileLines (text : String) : List String :=
  (lines isFileBreak (unifyReturns text.toList)).map String.ofList

def inputLines (text : String) : List String := (lines isLineFeed text.toList).map String.ofList

end Reckon.Text
