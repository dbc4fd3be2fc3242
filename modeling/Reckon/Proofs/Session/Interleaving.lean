import Reckon.Session
import Reckon.Proofs.Statement.Joining
/-!
A line is run statement by statement, and each of them is read when the ones before it have run.
`Loop` says so by rules of its own, with the queue of tokens carried from one statement to the
next; the main statement is `Loop.iff_line`, by which `Run.line` is this loop although it reads
the whole line first.
-/
set_option autoImplicit false

namespace Reckon

namespace TokenQueue

/-- What the queue has to offer to someone who runs its statements: nothing any more, an error
of reading, or one statement and the queue after it. -/
def statement? [Stack] (q : TokenQueue) : Option (Except Error (Expr × TokenQueue)) :=
  match q.atEnd with
  | (.error err, _) => some (.error (.lexical err))
  | (.ok true, _) => none
  | (.ok false, q) =>
    match q.statement ⟨false, Stack.arguments⟩ with
    | (.ok e, rest) => some (.ok (e, rest))
    | (.error err, _) => some (.error err)

/-- The statements are read one after another, and the last queue is what they leave. -/
inductive Reads [Stack] : TokenQueue → List Expr → TokenQueue → Prop where
  | nil {q : TokenQueue} : Reads q [] q
  | cons {q rest last : TokenQueue} {e : Expr} {es : List Expr} :
      q.statement? = some (.ok (e, rest)) → Reads rest es last → Reads q (e :: es) last

variable {q rest last : TokenQueue} {e : Expr} {es es' : List Expr}

theorem statement?_of_ne_nil [Stack] (hne : q.tokens ≠ []) :
    q.statement? =
      match q.statement ⟨false, Stack.arguments⟩ with
      | (.ok e, rest) => some (.ok (e, rest))
      | (.error err, _) => some (.error err) := by
  obtain ⟨tokens, failure⟩ := q
  obtain ⟨t, ts, rfl⟩ := List.exists_cons_of_ne_nil hne
  rfl

theorem statement?_of_nil [Stack] (failure : Option LexicalError) :
    statement? ⟨[], failure⟩ = failure.map fun err => .error (.lexical err) := by
  cases failure <;> rfl

theorem HasSigns.reads [Stack] (hq : q.HasSigns) :
    ∃ last, q.Reads (Reading.ofQueue Stack.arguments q).statements last ∧
      last.statement? = (Reading.ofQueue Stack.arguments q).failure.map .error := by
  -- A statement takes tokens, so the queue after it is shorter.
  induction hlen : q.tokens.length using Nat.strongRecOn generalizing q with
  | ind len ih =>
    by_cases hne : q.tokens = []
    · obtain ⟨tokens, failure⟩ := q
      cases hne
      refine ⟨⟨[], failure⟩, .nil, ?_⟩
      rw [statement?_of_nil]
      cases failure <;> rfl
    · have hoffer := statement?_of_ne_nil hne
      rcases hstatement : q.statement ⟨false, Stack.arguments⟩ with ⟨err | e, rest⟩
      · rw [hstatement] at hoffer
        rw [Reading.ofQueue_of_error hne hstatement]
        exact ⟨q, .nil, hoffer⟩
      · rw [hstatement] at hoffer
        have hlt := length_lt_of_statement hq hstatement
        obtain ⟨last, hreads, hlast⟩ :=
          ih rest.tokens.length (by omega) (hq.remaining hstatement) rfl
        rw [Reading.ofQueue_of_statement hq hstatement]
        exact ⟨last, .cons hoffer hreads, hlast⟩

theorem Reads.split [Stack] (h : q.Reads (es ++ es') last) :
    ∃ rest, q.Reads es rest ∧ rest.Reads es' last := by
  induction es generalizing q with
  | nil => exact ⟨q, .nil, h⟩
  | cons e es ih =>
    cases h with
    | cons hoffer hreads =>
      obtain ⟨rest, hfirst, hsecond⟩ := ih hreads
      exact ⟨rest, .cons hoffer hfirst, hsecond⟩

theorem Reads.isPrefix [Stack] {failure : Option Error} (h : q.Reads es rest)
    (hall : q.Reads es' last)
    (hlast : last.statement? = failure.map .error) :
    ∃ es'', es' = es ++ es'' ∧ rest.Reads es'' last := by
  induction h generalizing es' with
  | nil => exact ⟨es', rfl, hall⟩
  | cons hoffer _ ih =>
    cases hall with
    | nil =>
      rw [hoffer] at hlast
      cases failure <;> cases hlast
    | cons hoffer' hall =>
      rw [hoffer] at hoffer'
      cases hoffer'
      obtain ⟨es'', rfl, hrest⟩ := ih hall
      exact ⟨es'', rfl, hrest⟩

end TokenQueue

/-- The loop that runs the statements of a queue. A statement is read only when the one before it
has run, and nothing is read after an error. -/
inductive Loop [Stack] : FunctionTable → TokenQueue → Run → Prop where
  | done {table : FunctionTable} {q : TokenQueue} :
      q.statement? = none → Loop table q ⟨[], none, table⟩
  | unreadable {table : FunctionTable} {q : TokenQueue} {err : Error} :
      q.statement? = some (.error err) → Loop table q ⟨[], some ⟨none, err⟩, table⟩
  | failed {table : FunctionTable} {q rest : TokenQueue} {e : Expr} {err : Error} :
      q.statement? = some (.ok (e, rest)) → table.run e = .error err →
      Loop table q ⟨[], some ⟨some e, err⟩, table⟩
  | ran {table table' : FunctionTable} {q rest : TokenQueue} {e : Expr} {effect : Effect}
      {r : Run} :
      q.statement? = some (.ok (e, rest)) → table.run e = .ok (effect, table') →
      Loop table' rest r → Loop table q ⟨(e, effect) :: r.completed, r.interruption, r.table⟩

namespace Loop

variable {table : FunctionTable} {q last : TokenQueue} {es : List Expr} {failure : Option Error}
  {r r' : Run}

theorem unique [Stack] (h : Loop table q r) (h' : Loop table q r') : r = r' := by
  induction h generalizing r' with
  | done hoffer => cases h' <;> simp_all
  | unreadable hoffer => cases h' <;> simp_all
  | failed hoffer hrun => cases h' <;> simp_all
  | ran hoffer hrun _ ih =>
    cases h' with
    | ran hoffer' hrun' hrest =>
      obtain ⟨rfl, rfl⟩ : _ ∧ _ := by simpa [hoffer] using hoffer'
      obtain ⟨rfl, rfl⟩ : _ ∧ _ := by simpa [hrun] using hrun'
      rw [ih hrest]
    | done hoffer' | unreadable hoffer' | failed hoffer' _ => simp_all

theorem of_reads [Stack] (hreads : q.Reads es last) (hlast : last.statement? = failure.map .error) :
    Loop table q (Run.statements failure table es) := by
  induction hreads generalizing table with
  | nil =>
    cases failure with
    | none => exact .done hlast
    | some err => exact .unreadable hlast
  | @cons q rest last e es hoffer _ ih =>
    cases hrun : table.run e with
    | error err =>
      simp only [Run.statements, hrun]
      exact .failed hoffer hrun
    | ok done =>
      obtain ⟨effect, table'⟩ := done
      simp only [Run.statements, hrun]
      exact .ran hoffer hrun (ih hlast)

theorem line [Stack] (table : FunctionTable) (source : String) :
    Loop table (.ofLine source) (Run.line table source) := by
  obtain ⟨last, hreads, hlast⟩ := (TokenQueue.hasSigns_ofLine source).reads
  exact of_reads hreads hlast

theorem iff_line [Stack] (table : FunctionTable) (source : String) (r : Run) :
    Loop table (.ofLine source) r ↔ r = Run.line table source := by
  constructor
  · intro h
    exact h.unique (line table source)
  · rintro rfl
    exact line table source

end Loop

end Reckon
