import Reckon.Token.Scanner
/-!
Taking tokens one at a time. A queue holds the tokens not taken yet and the error that follows
them. The error is reported once, to whatever first needs a token past the last one; after that
the queue is at its end.
-/
set_option autoImplicit false

namespace Reckon

structure TokenQueue where
  tokens : List Token
  failure : Option LexicalError

namespace TokenQueue

def ofLine (source : String) : TokenQueue :=
  let scan := Scan.line source
  ⟨scan.tokens, scan.failure⟩

def peek : TokenQueue → Except LexicalError (Option Token) × TokenQueue
  | ⟨t :: ts, failure⟩ => (.ok (some t), ⟨t :: ts, failure⟩)
  | ⟨[], some e⟩ => (.error e, ⟨[], none⟩)
  | ⟨[], none⟩ => (.ok none, ⟨[], none⟩)

def next : TokenQueue → Except LexicalError (Option Token) × TokenQueue
  | ⟨t :: ts, failure⟩ => (.ok (some t), ⟨ts, failure⟩)
  | ⟨[], some e⟩ => (.error e, ⟨[], none⟩)
  | ⟨[], none⟩ => (.ok none, ⟨[], none⟩)

def atEnd (q : TokenQueue) : Except LexicalError Bool × TokenQueue :=
  match q.peek with
  | (.ok t, q) => (.ok t.isNone, q)
  | (.error e, q) => (.error e, q)

def drain : TokenQueue → Except LexicalError (List Token) × TokenQueue
  | ⟨_, some e⟩ => (.error e, ⟨[], none⟩)
  | ⟨ts, none⟩ => (.ok ts, ⟨[], none⟩)

theorem peek_fst (q : TokenQueue) : q.peek.1 = q.next.1 := by
  rcases q with ⟨_ | ⟨t, ts⟩, _ | e⟩ <;> rfl

end TokenQueue

end Reckon
