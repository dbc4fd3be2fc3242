import Reckon.Statement.Reader
set_option autoImplicit false

namespace Reckon

structure Reading where
  statements : List Expr
  failure : Option Error

namespace Reading

def upTo (limit : Limit) : Nat → TokenQueue → Reading
  | 0, _ => ⟨[], none⟩
  | count + 1, q =>
    if q.tokens.isEmpty then ⟨[], q.failure.map .lexical⟩
    else
      match q.statement ⟨false, limit⟩ with
      | (.ok e, rest) =>
        let further := upTo limit count rest
        ⟨e :: further.statements, further.failure⟩
      | (.error e, _) => ⟨[], some e⟩

/-- Every statement takes a token at least, so there are no more of them than tokens. -/
def ofQueue (limit : Limit) (q : TokenQueue) : Reading := upTo limit (q.tokens.length + 1) q

def ofLine [Stack] (source : String) : Reading := ofQueue Stack.arguments (.ofLine source)

/-- The statements of a line that is only read, not run. -/
def bare [Stack] (source : String) : Reading := ofQueue Stack.bareArguments (.ofLine source)

def all (r : Reading) : Except Error (List Expr) :=
  match r.failure with
  | some e => .error e
  | none => .ok r.statements

end Reading

end Reckon
