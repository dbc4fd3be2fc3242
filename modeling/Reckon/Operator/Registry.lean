import Reckon.Operator.Basic
import Reckon.Text.Order
set_option autoImplicit false

namespace Reckon.Operator

def find? (name : String) : Option Operator := table.find? fun op => op.name == name

theorem name_of_find? {name : String} {op : Operator} (h : find? name = some op) :
    op.name = name := by
  have := List.find?_some h
  simpa using this

theorem find?_name : ∀ op ∈ table, find? op.name = some op := by decide

def startsName (text : List Char) : Bool :=
  !text.isEmpty && table.any fun op => text.isPrefixOf op.name.toList

/-- Lengthens a candidate by the characters of a text as long as some name starts with it. The
last name met on the way is the best one. -/
def grow (best : Option Operator) (candidate : List Char) : List Char → Option Operator
  | [] => best
  | c :: cs =>
    let candidate := candidate ++ [c]
    if startsName candidate then grow ((find? (String.ofList candidate)).or best) candidate cs
    else best

def longest? (text : List Char) : Option Operator := grow none [] text

def signNames : List String := (table.filter fun op => !op.isCall).map name

def callNames : List String := (table.filter isCall).map name

def signature (op : Operator) : String :=
  if op.isCall && op.arity != 0 then
    op.name ++ "(" ++ String.intercalate ", " (["x", "y", "z"].take op.arity) ++ ")"
  else op.name

def helpLine? (name : String) : Option String :=
  (find? name).map fun op =>
    if op.help.isEmpty then op.signature else op.signature ++ ": " ++ op.help

def index : List Operator → Except String (List (String × Operator))
  | ops => ops.foldlM
    (fun entries op =>
      if entries.any fun entry => entry.1 == op.name then .error op.name
      else .ok (Text.insertByName op.name op entries))
    []

def duplicateMessage (name : String) : String := "Duplicate operator name '" ++ name ++ "'"

end Reckon.Operator
