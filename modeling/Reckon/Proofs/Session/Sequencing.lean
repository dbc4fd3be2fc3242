import Reckon.Session
import Reckon.Proofs.Statement.Joining
import Reckon.Proofs.Statement.Position
import Reckon.Proofs.Token.Joining
set_option autoImplicit false

namespace Reckon

def Interruption.shift (n : Nat) (i : Interruption) : Interruption :=
  match i.statement with
  | none => ⟨none, i.error.shift n⟩
  | some e => ⟨some e, i.error⟩

namespace Run

def shift (n : Nat) (r : Run) : Run :=
  ⟨r.completed, r.interruption.map (Interruption.shift n), r.table⟩

/-- A run and, if nothing cut it short, another one with the functions it leaves. -/
def followedBy (r : Run) (next : FunctionTable → Run) : Run :=
  match r.interruption with
  | some _ => r
  | none =>
    let further := next r.table
    ⟨r.completed ++ further.completed, further.interruption, further.table⟩

theorem statements_append [Stack] (failure : Option Error) (table : FunctionTable)
    (es es' : List Expr) :
    statements failure table (es ++ es') =
      (statements none table es).followedBy fun table => statements failure table es' := by
  induction es generalizing table with
  | nil => rfl
  | cons e es ih =>
    rw [List.cons_append]
    cases hrun : table.run e with
    | error err => simp [statements, hrun, followedBy]
    | ok done =>
      obtain ⟨effect, table'⟩ := done
      have hrest := ih table'
      cases hinterruption : (statements none table' es).interruption with
      | none => simp [statements, hrun, followedBy, hinterruption, hrest]
      | some i => simp [statements, hrun, followedBy, hinterruption, hrest]

theorem statements_shift [Stack] (n : Nat) (failure : Option Error) (table : FunctionTable)
    (es : List Expr) :
    statements (failure.map (Error.shift n)) table es = (statements failure table es).shift n := by
  induction es generalizing table with
  | nil => cases failure <;> rfl
  | cons e es ih =>
    cases hrun : table.run e with
    | error err => simp [statements, hrun, shift, Interruption.shift]
    | ok done =>
      obtain ⟨effect, table'⟩ := done
      simp only [statements, hrun, ih]
      rfl

theorem outcome_followedBy (r : Run) (next : FunctionTable → Run) :
    (r.followedBy next).outcome =
      match r.outcome with
      | .error err => .error err
      | .ok xs =>
        match (next r.table).outcome with
        | .error err => .error err
        | .ok ys => .ok (xs ++ ys) := by
  cases h : r.interruption with
  | some i => simp [followedBy, outcome, h]
  | none =>
    cases h' : (next r.table).interruption <;> simp [followedBy, outcome, values, h, h']

theorem table_followedBy (r : Run) (next : FunctionTable → Run) :
    (r.followedBy next).table =
      match r.outcome with
      | .error _ => r.table
      | .ok _ => (next r.table).table := by
  cases h : r.interruption <;> simp [followedBy, outcome, h]

end Run

section Lines

variable {first : String}

theorem TokenQueue.ofLine_comma (hfailure : (TokenQueue.ofLine first).failure = none)
    (hquote : ¬ Scan.EndsInQuote first.toList) (second : String) :
    TokenQueue.ofLine (first ++ "," ++ second) =
      ⟨(TokenQueue.ofLine first).tokens ++
          Token.comma first.length :: ((TokenQueue.ofLine second).shift (first.length + 1)).tokens,
        ((TokenQueue.ofLine second).shift (first.length + 1)).failure⟩ := by
  have htext : (first ++ "," ++ second).toList = first.toList ++ ',' :: second.toList := by simp
  have hscan := Scan.chars_comma hfailure hquote second.toList
  have hsecond := Scan.chars_add 0 (first.length + 1) second.toList
  simp only [TokenQueue.ofLine, Scan.line, htext, hscan, String.length_toList, Nat.zero_add]
  rw [Nat.zero_add] at hsecond
  rw [hsecond]
  rfl

theorem Reading.ofLine_comma [Stack] (hread : (Reading.ofLine first).failure = none)
    (hstatements : (Reading.ofLine first).statements ≠ [])
    (hlast : ∀ t ∈ (Scan.line first).tokens.getLast?, t.isComma = false)
    (hquote : ¬ Scan.EndsInQuote first.toList) (second : String) :
    Reading.ofLine (first ++ "," ++ second) =
      ⟨(Reading.ofLine first).statements ++ (Reading.ofLine second).statements,
        (Reading.ofLine second).failure.map (Error.shift (first.length + 1))⟩ := by
  have hfirst : (TokenQueue.ofLine first).HasSigns := TokenQueue.hasSigns_ofLine first
  have hfailure : (TokenQueue.ofLine first).failure = none := Reading.failure_eq_none hfirst hread
  have hqueue : TokenQueue.ofLine first = ⟨(TokenQueue.ofLine first).tokens, none⟩ := by
    rw [← hfailure]
  have hne : (TokenQueue.ofLine first).tokens ≠ [] := by
    intro hnil
    refine hstatements ?_
    rw [Reading.ofLine, hqueue, hnil]
    rfl
  have hsecond : ∀ t ∈ ((TokenQueue.ofLine second).shift (first.length + 1)).tokens, t.HasSign := by
    intro t ht
    obtain ⟨u, hu, rfl⟩ := List.mem_map.1 ht
    exact TokenQueue.hasSigns_ofLine second u hu
  have hshift := Reading.ofQueue_shift Stack.arguments (first.length + 1)
    (TokenQueue.ofLine second)
  rw [Reading.ofLine, hqueue] at hread
  rw [Reading.ofLine, TokenQueue.ofLine_comma hfailure hquote second,
    Reading.ofQueue_comma ⟨rfl, rfl⟩ hsecond hfirst hne hlast hread, ← hqueue]
  change Reading.mk (_ ++ (Reading.ofQueue _ (TokenQueue.shift _ _)).statements)
    (Reading.ofQueue _ (TokenQueue.shift _ _)).failure = _
  rw [hshift]
  rfl

end Lines

/-- A comma is sequencing. Behind a line that can be read to its end, has a statement, ends with
no comma and leaves no quote open, a comma and any text run as that text does after the line, and
not at all if the line fails; where the text itself cannot be read, the position is that in the
whole line. -/
theorem run_comma [Stack] (table : FunctionTable) (first second : String)
    (hread : (Reading.ofLine first).failure = none)
    (hstatements : (Reading.ofLine first).statements ≠ [])
    (hlast : ∀ t ∈ (Scan.line first).tokens.getLast?, t.isComma = false)
    (hquote : ¬ Scan.EndsInQuote first.toList) :
    let next := fun table => (Run.line table second).shift (first.length + 1)
    Run.line table (first ++ "," ++ second) = (Run.line table first).followedBy next ∧
      (Run.line table (first ++ "," ++ second)).outcome =
        (match (Run.line table first).outcome with
        | .error err => .error err
        | .ok xs =>
          match (next (Run.line table first).table).outcome with
          | .error err => .error err
          | .ok ys => .ok (xs ++ ys)) ∧
      (Run.line table (first ++ "," ++ second)).table =
        match (Run.line table first).outcome with
        | .error _ => (Run.line table first).table
        | .ok _ => (Run.line (Run.line table first).table second).table := by
  intro next
  have hrun : Run.line table (first ++ "," ++ second) = (Run.line table first).followedBy next := by
    have hnone : Reading.ofLine first = ⟨(Reading.ofLine first).statements, none⟩ := by
      rw [← hread]
    rw [Run.line, Run.line, Reading.ofLine_comma hread hstatements hlast hquote second, hnone]
    simp only [Run.reading, Run.statements_append, Run.statements_shift]
    rfl
  rw [hrun]
  exact ⟨rfl, Run.outcome_followedBy _ next, Run.table_followedBy _ next⟩

theorem run_comma_misplaced :
    (Run.line .empty "f='y',g(a b)").outcome =
        .error (.misplaced (.expectingOperator "b") (some 10)) ∧
      (Run.line .empty "f='y',g(a b)").table.names = ["f"] := by
  have htext : "f='y'".toList = ['f', '=', '\x27', 'y', '\x27'] := rfl
  have htokens : (Scan.line "f='y'").tokens =
      [⟨.text, "f", 0, 1⟩, ⟨.operator .assign, "=", 1, 2⟩, ⟨.text, "y", 2, 5⟩] := rfl
  have hstatements : (Reading.ofLine "f='y'").statements =
      [.operator .assign [.call "f" [], .call "y" []]] := rfl
  have hquote : ¬ Scan.EndsInQuote "f='y'".toList := by
    rintro ⟨t, ht, quote, rest, hdrop, hquote, hmem⟩
    have ht' : t ∈ (Scan.line "f='y'").tokens := ht
    rw [htokens] at ht'
    rw [htext] at hdrop
    simp only [List.mem_cons, List.not_mem_nil, or_false] at ht'
    rcases ht' with rfl | rfl | rfl
    · cases hdrop
      cases hquote
    · cases hdrop
      cases hquote
    · cases hdrop
      simp at hmem
  obtain ⟨-, houtcome, htable⟩ := run_comma .empty "f='y'" "g(a b)" rfl (by simp [hstatements])
    (by simp [htokens, Token.isComma]) hquote
  exact ⟨houtcome.trans rfl, (congrArg FunctionTable.names htable).trans rfl⟩

end Reckon
