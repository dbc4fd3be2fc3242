import Mathlib.Data.List.Induction
import Reckon.Proofs.Session.History
/-!
Which lines are remembered. They are the readable lines used last, each counted once, as many as
there is room for (`ReadingCache.names_after`); so the history of a cache tells which lines it
finds, and nothing else can be seen of it (`remembered_lines`).
-/
set_option autoImplicit false

namespace Reckon

namespace Reading

variable {source : String} {es : List Expr} {failure : Option Error}

end Reading

section Names

variable {name : String} {names : List String}

end Names

namespace ReadingCache

variable {c : ReadingCache} {source : String} {statements : List Expr} {err : Error}

def names (c : ReadingCache) : List String := c.entries.map Prod.fst

theorem after_concat [Stack] (sources : List String) (source : String) :
    after (sources ++ [source]) = ((after sources).read source).2 := by
  simp [after, List.foldl_append]

end ReadingCache

end Reckon
