import Reckon.Session
import Reckon.Proofs.Statement.Position
import Reckon.Proofs.Token.Spacing
set_option autoImplicit false

namespace Reckon

def Error.unplaced (e : Error) : Error := e.relocate fun _ => 0

def Interruption.unplaced (i : Interruption) : Interruption := ⟨i.statement, i.error.unplaced⟩

namespace Run

def unplaced (r : Run) : Run := ⟨r.completed, r.interruption.map Interruption.unplaced, r.table⟩

theorem outcome_unplaced (r : Run) : r.unplaced.outcome = r.outcome.mapError Error.unplaced := by
  cases h : r.interruption <;> simp [unplaced, outcome, h] <;> rfl

theorem statements_unplaced [Stack] {failure failure' : Option Error}
    (h : failure.map Error.unplaced = failure'.map Error.unplaced) (table : FunctionTable)
    (es : List Expr) :
    (statements failure table es).unplaced = (statements failure' table es).unplaced := by
  induction es generalizing table with
  | nil =>
    have hinterruption : ∀ failure : Option Error,
        (failure.map (Interruption.mk none)).map Interruption.unplaced =
          (failure.map Error.unplaced).map (Interruption.mk none) := by
      intro failure
      cases failure <;> rfl
    simp only [statements, unplaced, hinterruption, h]
  | cons e es ih =>
    cases hrun : table.run e with
    | error err => simp only [statements, hrun]
    | ok done =>
      obtain ⟨effect, table'⟩ := done
      have hrest := ih table'
      simp only [unplaced, mk.injEq] at hrest
      simp only [statements, hrun, unplaced, hrest]

end Run

theorem Reading.ofLine_unplaced [Stack] {first second : String}
    (htokens : (Scan.line first).tokens.map (Token.relocate fun _ => 0) =
      (Scan.line second).tokens.map (Token.relocate fun _ => 0))
    (hfirst : (Scan.line first).failure = none) (hsecond : (Scan.line second).failure = none) :
    (Reading.ofLine first).relocate (fun _ => 0) = (Reading.ofLine second).relocate fun _ => 0 := by
  have hqueue : (TokenQueue.ofLine first).relocate (fun _ => 0) =
      (TokenQueue.ofLine second).relocate fun _ => 0 := by
    simp only [TokenQueue.ofLine, TokenQueue.relocate, htokens, hfirst, hsecond]
  rw [ofLine, ofLine, ← ofQueue_relocate, ← ofQueue_relocate, hqueue]

/-- The tokens of a line can be written anew with any blanks between them. They keep their kinds,
values and texts, each takes the same characters as before, and the line is read and run as
before, up to the positions of errors. -/
theorem respaced_line [Stack] (source : String) (gaps : List (List Char))
    (hfailure : (Scan.line source).failure = none)
    (hgaps : gaps.length = (Scan.line source).tokens.length)
    (hblank : ∀ gap ∈ gaps, ∀ c ∈ gap, c ∈ Lexeme.blanks)
    (hbetween : ∀ gap ∈ gaps.tail, gap ≠ []) :
    let parts := gaps.zip (Scan.line source).tokens
    let text := String.ofList (Token.written source.toList parts)
    Scan.line text = ⟨Token.placed source.toList 0 parts, none⟩ ∧
      (Scan.line text).tokens.map (Token.inLine text.toList) =
        (Scan.line source).tokens.map (Token.inLine source.toList) ∧
      (Reading.ofLine text).statements = (Reading.ofLine source).statements ∧
      (Reading.ofLine text).failure.map Error.unplaced =
        (Reading.ofLine source).failure.map Error.unplaced ∧
      ∀ table, (Run.line table text).unplaced = (Run.line table source).unplaced ∧
        (Run.line table text).outcome.mapError Error.unplaced =
          (Run.line table source).outcome.mapError Error.unplaced := by
  intro parts text
  have hparts : parts.map Prod.snd = (Scan.line source).tokens :=
    List.map_snd_zip (Nat.le_of_eq hgaps.symm)
  have hapart : Token.Apart parts := Token.Apart.of_zip hblank hbetween
  have htext : text.toList = Token.written source.toList parts := String.toList_ofList
  have hscan : Scan.line text = ⟨Token.placed source.toList 0 parts, none⟩ := by
    rw [Scan.line, htext]
    exact Scan.chars_written 0 source.toList rfl hfailure hparts hapart 0
  have htokens : (Scan.line text).tokens.map (Token.relocate fun _ => 0) =
      (Scan.line source).tokens.map (Token.relocate fun _ => 0) := by
    rw [hscan, ← hparts]
    exact Token.relocate_placed 0
  have hread := Reading.ofLine_unplaced htokens (by rw [hscan]) hfailure
  have hstatements := congrArg Reading.statements hread
  have hfaults := congrArg Reading.failure hread
  have hrun : ∀ table, (Run.line table text).unplaced = (Run.line table source).unplaced := by
    intro table
    simp only [Reading.relocate] at hstatements
    rw [Run.line, Run.line, Run.reading, Run.reading, hstatements]
    exact Run.statements_unplaced hfaults table _
  refine ⟨hscan, ?_, hstatements, hfaults, fun table => ⟨hrun table, ?_⟩⟩
  · rw [hscan, ← hparts]
    exact Token.inLine_placed 0 htext
  · rw [← Run.outcome_unplaced, ← Run.outcome_unplaced, hrun table]

/-- Two numerals and two operators side by side, and a quoted text that nothing ends. The second
numeral stays what cannot be read, but stands at 7 now and not at 5. -/
theorem respaced_line_adjacent :
    (Scan.line " 0b101\t2 >>\n=\x0c\r'a ").tokens.map (fun t => (t.text, t.start, t.stop)) =
        [("0b101", 1, 6), ("2", 7, 8), (">>", 9, 11), ("=", 12, 13), ("a ", 15, 18)] ∧
      (Run.line .empty " 0b101\t2 >>\n=\x0c\r'a ").outcome.mapError Error.unplaced =
        (Run.line .empty "0b1012>>='a ").outcome.mapError Error.unplaced ∧
      (Run.line .empty " 0b101\t2 >>\n=\x0c\r'a ").outcome =
        .error (.misplaced (.expectingOperator "2") (some 7)) ∧
      (Run.line .empty "0b1012>>='a ").outcome =
        .error (.misplaced (.expectingOperator "2") (some 5)) := by
  obtain ⟨hscan, -, -, -, hrun⟩ := respaced_line "0b1012>>='a "
    [[' '], ['\t'], [' '], ['\n'], ['\x0c', '\r']] rfl rfl (by simp [Lexeme.blanks]) (by simp)
  have htext : String.ofList (Token.written "0b1012>>='a ".toList
      ([[' '], ['\t'], [' '], ['\n'], ['\x0c', '\r']].zip (Scan.line "0b1012>>='a ").tokens)) =
      " 0b101\t2 >>\n=\x0c\r'a " := rfl
  rw [htext] at hscan hrun
  refine ⟨?_, (hrun .empty).2, rfl, rfl⟩
  rw [hscan]
  rfl

end Reckon
