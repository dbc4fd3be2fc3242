import Reckon.Statement.Line
import Reckon.Text.Order
set_option autoImplicit false

namespace Reckon

inductive Unanswered where
  | faulty (error : Error)
  /-- The stack is used up. Nothing turns this into an error of the line. -/
  | outOfStack

def Unanswered.ofError : Error → Unanswered
  | .excessiveRecursion => .outOfStack
  | e => .faulty e

/-- The lines remembered, the one used last first, and how many were found or not found. -/
structure ReadingCache where
  entries : List (String × List Expr)
  hits : Nat
  misses : Nat

namespace ReadingCache

def capacity : Nat := 256

def empty : ReadingCache := ⟨[], 0, 0⟩

def size (c : ReadingCache) : Nat := c.entries.length

def read [Stack] (c : ReadingCache) (source : String) :
    Except Unanswered (List Expr) × ReadingCache :=
  match Text.lookup? source c.entries with
  | some statements =>
    let others := c.entries.filter fun entry => entry.1 != source
    (.ok statements, ⟨(source, statements) :: others, c.hits + 1, c.misses⟩)
  | none =>
    match (Reading.bare source).all with
    | .ok statements =>
      let entries := ((source, statements) :: c.entries).take capacity
      (.ok statements, ⟨entries, c.hits, c.misses + 1⟩)
    | .error e => (.error (.ofError e), ⟨c.entries, c.hits, c.misses + 1⟩)

end ReadingCache

end Reckon
