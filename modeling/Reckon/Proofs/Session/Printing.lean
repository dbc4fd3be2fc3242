import Reckon.Command.Transcript
import Reckon.Proofs.Session.History
set_option autoImplicit false

namespace Reckon

/-- The loop that runs the statements of a queue and prints each value at once, and at last the
message of an error. -/
inductive Printing [Stack] : FunctionTable → TokenQueue → Transcript → Prop where
  | done {table : FunctionTable} {q : TokenQueue} :
      q.statement? = none → Printing table q ⟨[], true, table⟩
  | unreadable {table : FunctionTable} {q : TokenQueue} {err : Error} :
      q.statement? = some (.error err) → Printing table q ⟨[err.message], false, table⟩
  | failed {table : FunctionTable} {q rest : TokenQueue} {e : Expr} {err : Error} :
      q.statement? = some (.ok (e, rest)) → table.run e = .error err →
      Printing table q ⟨[err.message], false, table⟩
  | value {table next : FunctionTable} {q rest : TokenQueue} {e : Expr} {x : Number}
      {t : Transcript} :
      q.statement? = some (.ok (e, rest)) → table.run e = .ok (.value x, next) →
      Printing next rest t →
      Printing table q ⟨String.ofList x.display :: t.printed, t.succeeded, t.table⟩
  | definition {table next : FunctionTable} {q rest : TokenQueue} {e : Expr} {d : Definition}
      {replaced : Bool} {t : Transcript} :
      q.statement? = some (.ok (e, rest)) → table.run e = .ok (.defined d replaced, next) →
      Printing next rest t → Printing table q t

inductive PrintingLines [Stack] : FunctionTable → List String → Transcript → Prop where
  | nil {table : FunctionTable} : PrintingLines table [] ⟨[], true, table⟩
  | cons {table : FunctionTable} {source : String} {sources : List String} {t t' : Transcript} :
      Printing table (.ofLine source) t → PrintingLines t.table sources t' →
      PrintingLines table (source :: sources)
        ⟨t.printed ++ t'.printed, t.succeeded && t'.succeeded, t'.table⟩

namespace Run

/-- What the command makes of a run when it does not show the statements. -/
def transcript (r : Run) : Transcript := ⟨r.printed false, r.interruption.isNone, r.table⟩

theorem printed_false (r : Run) :
    r.printed false =
      match r.outcome with
      | .ok xs => xs.map fun x => String.ofList x.display
      | .error err => (r.values.map fun x => String.ofList x.display) ++ [err.message] := by
  have hvalues : (r.completed.flatMap fun step =>
      shown false step.1 ++ step.2.value?.toList.map fun x => String.ofList x.display) =
      r.values.map fun x => String.ofList x.display := by
    unfold values
    induction r.completed with
    | nil => rfl
    | cons step steps ih =>
      rw [List.flatMap_cons, ih]
      cases hvalue : step.2.value? <;> simp [shown, hvalue]
  rw [printed, hvalues]
  cases h : r.interruption with
  | none => simp [outcome, h]
  | some i => cases hi : i.statement <;> simp [outcome, h, hi, shown]

theorem isNone_interruption_iff (r : Run) :
    r.interruption.isNone = true ↔ ∃ xs, r.outcome = .ok xs := by
  cases h : r.interruption <;> simp [outcome, h]

end Run

theorem Loop.printing [Stack] {table : FunctionTable} {q : TokenQueue} {r : Run}
    (h : Loop table q r) :
    Printing table q r.transcript := by
  induction h with
  | done hoffer => exact .done hoffer
  | unreadable hoffer => exact .unreadable hoffer
  | failed hoffer hrun => exact .failed hoffer hrun
  | @ran table next q rest e effect r hoffer hrun _ ih =>
    cases effect with
    | value x => exact .value hoffer hrun ih
    | defined d replaced => exact .definition hoffer hrun ih

theorem Printing.exists_loop [Stack] {table : FunctionTable} {q : TokenQueue} {t : Transcript}
    (h : Printing table q t) : ∃ r, Loop table q r ∧ t = r.transcript := by
  induction h with
  | done hoffer => exact ⟨_, .done hoffer, rfl⟩
  | unreadable hoffer => exact ⟨_, .unreadable hoffer, rfl⟩
  | failed hoffer hrun => exact ⟨_, .failed hoffer hrun, rfl⟩
  | value hoffer hrun _ ih =>
    obtain ⟨r, hloop, rfl⟩ := ih
    exact ⟨_, .ran hoffer hrun hloop, rfl⟩
  | definition hoffer hrun _ ih =>
    obtain ⟨r, hloop, rfl⟩ := ih
    exact ⟨_, .ran hoffer hrun hloop, rfl⟩

theorem printing_iff [Stack] (table : FunctionTable) (source : String) (t : Transcript) :
    Printing table (.ofLine source) t ↔ t = (Run.line table source).transcript := by
  constructor
  · intro h
    obtain ⟨r, hloop, rfl⟩ := h.exists_loop
    rw [(Loop.iff_line table source r).1 hloop]
  · rintro rfl
    exact (Loop.line table source).printing

namespace Transcript

theorem foldl_extend [Stack] (showTree : Bool) (t : Transcript) (sources : List String) :
    sources.foldl (extend showTree) t =
      let t' := ofLines showTree t.table sources
      ⟨t.printed ++ t'.printed, t.succeeded && t'.succeeded, t'.table⟩ := by
  induction sources generalizing t with
  | nil => simp [ofLines]
  | cons source sources ih =>
    have hfirst := ih (extend showTree ⟨[], true, t.table⟩ source)
    rw [List.foldl_cons, ofLines, List.foldl_cons, ih, hfirst]
    simp [extend, Bool.and_assoc]

theorem ofLines_cons [Stack] (showTree : Bool) (table : FunctionTable) (source : String)
    (sources : List String) :
    ofLines showTree table (source :: sources) =
      let reading := Reading.ofLine source
      let r := Run.reading table (if showTree then reading.printable else reading)
      let t := ofLines showTree r.table sources
      ⟨r.printed showTree ++ t.printed, r.interruption.isNone && t.succeeded, t.table⟩ := by
  rw [ofLines, List.foldl_cons, foldl_extend]
  simp [extend]

theorem ofLines_false [Stack] (table : FunctionTable) (sources : List String) :
    ofLines false table sources =
      ⟨(Run.lines table sources).flatMap (Run.printed false),
        (Run.lines table sources).all fun r => r.interruption.isNone, table.following sources⟩ := by
  induction sources generalizing table with
  | nil => rfl
  | cons source sources ih =>
    rw [ofLines_cons]
    simp [ih, Run.lines, Run.line, FunctionTable.following]

end Transcript

theorem printingLines_iff [Stack] (table : FunctionTable) (sources : List String) (t : Transcript) :
    PrintingLines table sources t ↔ t = Transcript.ofLines false table sources := by
  induction sources generalizing table t with
  | nil =>
    constructor
    · intro h
      cases h
      rfl
    · rintro rfl
      exact .nil
  | cons source sources ih =>
    rw [Transcript.ofLines_cons]
    constructor
    · intro h
      cases h with
      | cons hline hlines =>
        rw [printing_iff] at hline
        subst hline
        rw [(ih _ _).1 hlines]
        rfl
    · rintro rfl
      exact .cons ((printing_iff table source _).2 rfl) ((ih _ _).2 rfl)

section Failure

variable {table : FunctionTable} {q : TokenQueue} {r : Run} {i : Interruption}

theorem Loop.exists_failure [Stack] (h : Loop table q r) (hi : r.interruption = some i) :
    ∃ next q', table.Completes r.completed next ∧ q.Reads (r.completed.map Prod.fst) q' ∧
      (q'.statement? = some (.error i.error) ∨
        ∃ e rest, q'.statement? = some (.ok (e, rest)) ∧ next.run e = .error i.error) := by
  induction h with
  | done => cases hi
  | @unreadable table q err hoffer =>
    cases hi
    exact ⟨table, q, .nil, .nil, .inl hoffer⟩
  | @failed table q rest e err hoffer hrun =>
    cases hi
    exact ⟨table, q, .nil, .nil, .inr ⟨e, rest, hoffer, hrun⟩⟩
  | ran hoffer hrun _ ih =>
    obtain ⟨last, q', hcompletes, hreads, hfailure⟩ := ih hi
    exact ⟨last, q', .cons hrun hcompletes, .cons hoffer hreads, hfailure⟩

end Failure

/-- The command and a session are the same interpreter: for any lines and any functions at the
start the command, which prints while it runs, leaves the functions that running the lines one
after another leaves. It prints the values of a line that succeeds; of one that fails it prints
the values of the statements before the failing one, and the message of the error. It succeeds
when all lines do. -/
theorem transcript_outcomes [Stack] (table : FunctionTable) (sources : List String) :
    let t := Transcript.ofLines false table sources
    let text := fun x : Number => String.ofList x.display
    (∀ t', PrintingLines table sources t' ↔ t' = t) ∧
    (∀ table source r, Loop table (.ofLine source) r ↔ r = Run.line table source) ∧
    t.table = table.following sources ∧
    (t.printed = (Run.lines table sources).flatMap fun r =>
      match r.outcome with
      | .ok xs => xs.map text
      | .error err => r.values.map text ++ [err.message]) ∧
    (t.succeeded = true ↔ ∀ r ∈ Run.lines table sources, ∃ xs, r.outcome = .ok xs) ∧
    ∀ table source err, (Run.line table source).outcome = .error err →
      ∃ steps next q, table.Completes steps next ∧
        (TokenQueue.ofLine source).Reads (steps.map Prod.fst) q ∧
        (Run.line table source).values = steps.filterMap (fun step => step.2.value?) ∧
        (q.statement? = some (.error err) ∨
          ∃ e rest, q.statement? = some (.ok (e, rest)) ∧ next.run e = .error err) := by
  intro t text
  have ht : t = _ := Transcript.ofLines_false table sources
  refine ⟨?_, ?_, ?_, ?_, ?_, ?_⟩
  · intro t'
    exact printingLines_iff table sources t'
  · intro table source r
    exact Loop.iff_line table source r
  · rw [ht]
  · rw [ht]
    exact congrArg (List.flatMap · _) (funext Run.printed_false)
  · rw [ht, List.all_eq_true]
    exact forall₂_congr fun r _ => r.isNone_interruption_iff
  · intro table source err herr
    obtain ⟨i, hi, rfl⟩ := Option.map_eq_some_iff.1 (Run.outcome_eq_error_iff.1 herr)
    obtain ⟨next, q, hcompletes, hreads, hfailure⟩ := (Loop.line table source).exists_failure hi
    exact ⟨_, next, q, hcompletes, hreads, rfl, hfailure⟩

theorem transcript_outcomes_failing :
    let source := "f='y',0/0,g(a b)"
    let err := Error.misplaced (.expectingOperator "b") (some 14)
    (Transcript.ofLines false .empty [source, "1/0"]).printed = ["NaN", err.message, "inf"] ∧
      (Transcript.ofLines false .empty [source, "1/0"]).succeeded = false ∧
      (Run.line .empty source).outcome = .error err ∧
      ∃ steps next q, FunctionTable.empty.Completes steps next ∧
        (TokenQueue.ofLine source).Reads (steps.map Prod.fst) q ∧
        [Number.nan] = steps.filterMap (fun step => step.2.value?) ∧
        (q.statement? = some (.error err) ∨
          ∃ e rest, q.statement? = some (.ok (e, rest)) ∧ next.run e = .error err) := by
  intro source err
  obtain ⟨-, -, -, hprinted, hsucceeded, hfailing⟩ :=
    transcript_outcomes .empty [source, "1/0"]
  have hvalues : (Run.line .empty source).values = [.nan] := by decide +kernel
  have hfirst : (Run.line .empty source).outcome = .error err :=
    Run.outcome_eq_error_iff.2 (by decide +kernel)
  have hsecond : (Run.line (Run.line .empty source).table "1/0").outcome =
      .ok [.infinite false] :=
    Run.outcome_eq_ok_iff.2
      ⟨Option.isNone_iff_eq_none.1 (by decide +kernel), by decide +kernel⟩
  refine ⟨?_, ?_, hfirst, hvalues ▸ hfailing .empty source err hfirst⟩
  · have hnan : String.ofList (Number.display .nan) = "NaN" := by decide +kernel
    have hinf : String.ofList (Number.display (.infinite false)) = "inf" := by decide +kernel
    rw [hprinted]
    simp [Run.lines, hfirst, hsecond, hvalues, hnan, hinf]
  · rw [← Bool.not_eq_true, hsucceeded]
    intro hall
    obtain ⟨xs, hxs⟩ := hall (Run.line .empty source) (List.mem_cons_self ..)
    rw [hfirst] at hxs
    cases hxs

end Reckon
