import Reckon.Proofs.Session.Defining
import Reckon.Proofs.Session.Printing
/-!
Showing the statements of lines while these run. The loop that shows each statement just before it
runs has its own rules (`Showing`). Without the shown statements its log is that of the loop that
shows none, as long as no statement that runs is too deep to be shown (`transcript_shown`); such a
statement ends its line, although it may be one that runs or one that defines a function
(`transcript_shown_too_deep`).
-/
set_option autoImplicit false

namespace Reckon

inductive LogEntry where
  | tree (e : Expr)
  | value (x : Number)
  | message (err : Error)

namespace LogEntry

def text : LogEntry → String
  | .tree e => String.ofList e.render
  | .value x => String.ofList x.display
  | .message err => err.message

def isTree : LogEntry → Bool
  | .tree _ => true
  | .value _ => false
  | .message _ => false

@[simp] theorem isTree_tree (e : Expr) : (tree e).isTree = true := rfl

@[simp] theorem isTree_value (x : Number) : (value x).isTree = false := rfl

@[simp] theorem isTree_message (err : Error) : (message err).isTree = false := rfl

end LogEntry

structure Log where
  entries : List LogEntry
  succeeded : Bool
  table : FunctionTable

namespace Log

def transcript (l : Log) : Transcript := ⟨l.entries.map LogEntry.text, l.succeeded, l.table⟩

def erase (l : Log) : Log := ⟨l.entries.filter fun x => !x.isTree, l.succeeded, l.table⟩

end Log

/-- The loop that runs the statements of a queue and shows each one just before it runs. One that
is too deep to be shown does not run and ends the line. -/
inductive Showing [Stack] : FunctionTable → TokenQueue → Log → Prop where
  | done {table : FunctionTable} {q : TokenQueue} :
      q.statement? = none → Showing table q ⟨[], true, table⟩
  | unreadable {table : FunctionTable} {q : TokenQueue} {err : Error} :
      q.statement? = some (.error err) → Showing table q ⟨[.message err], false, table⟩
  | tooDeep {table : FunctionTable} {q rest : TokenQueue} {e : Expr} :
      q.statement? = some (.ok (e, rest)) → e.fits Stack.printing = false →
      Showing table q ⟨[.message .excessiveRecursion], false, table⟩
  | failed {table : FunctionTable} {q rest : TokenQueue} {e : Expr} {err : Error} :
      q.statement? = some (.ok (e, rest)) → e.fits Stack.printing = true →
      table.run e = .error err → Showing table q ⟨[.tree e, .message err], false, table⟩
  | ran {table next : FunctionTable} {q rest : TokenQueue} {e : Expr} {effect : Effect} {l : Log} :
      q.statement? = some (.ok (e, rest)) → e.fits Stack.printing = true →
      table.run e = .ok (effect, next) → Showing next rest l →
      Showing table q
        ⟨.tree e :: (effect.value?.toList.map .value ++ l.entries), l.succeeded, l.table⟩

inductive ShowingLines [Stack] : FunctionTable → List String → Log → Prop where
  | nil {table : FunctionTable} : ShowingLines table [] ⟨[], true, table⟩
  | cons {table : FunctionTable} {source : String} {sources : List String} {l l' : Log} :
      Showing table (.ofLine source) l → ShowingLines l.table sources l' →
      ShowingLines table (source :: sources)
        ⟨l.entries ++ l'.entries, l.succeeded && l'.succeeded, l'.table⟩

namespace Run

def stepEntries (step : Expr × Effect) : List LogEntry :=
  .tree step.1 :: step.2.value?.toList.map .value

def lastEntries (i : Interruption) : List LogEntry :=
  i.statement.toList.map .tree ++ [.message i.error]

def log (r : Run) : Log :=
  ⟨r.completed.flatMap stepEntries ++ r.interruption.toList.flatMap lastEntries,
    r.interruption.isNone, r.table⟩

/-- The statements that run are not too deep to be shown, or else fail for their depth anyway. -/
structure Showable [Stack] (r : Run) : Prop where
  completed : ∀ step ∈ r.completed, step.1.fits Stack.printing = true
  interrupted : ∀ i ∈ r.interruption, ∀ e ∈ i.statement,
    e.fits Stack.printing = true ∨ i.error = .excessiveRecursion

theorem printed_true (r : Run) : r.printed true = r.log.transcript.printed := by
  have hstep : ∀ step, (stepEntries step).map LogEntry.text =
      shown true step.1 ++ step.2.value?.toList.map fun x => String.ofList x.display := by
    intro step
    simp [stepEntries, shown, LogEntry.text, Function.comp_def]
  obtain ⟨completed, interruption, table⟩ := r
  rcases interruption with _ | ⟨_ | e, err⟩ <;>
    simp [printed, log, Log.transcript, lastEntries, List.map_flatMap, hstep, shown, LogEntry.text]

theorem printed_false_erase (r : Run) : r.printed false = r.log.erase.transcript.printed := by
  have hstep : ∀ step, ((stepEntries step).filter fun x => !x.isTree).map LogEntry.text =
      shown false step.1 ++ step.2.value?.toList.map fun x => String.ofList x.display := by
    intro step
    cases hvalue : step.2.value? <;> simp [stepEntries, shown, LogEntry.text, hvalue]
  obtain ⟨completed, interruption, table⟩ := r
  rcases interruption with _ | ⟨_ | e, err⟩ <;>
    simp [printed, log, Log.transcript, Log.erase, lastEntries, List.filter_flatMap,
      List.map_flatMap, hstep, shown, LogEntry.text]

end Run

namespace Reading

variable {e : Expr} {es : List Expr} {failure : Option Error}

theorem printable_cons [Stack] (h : e.fits Stack.printing = true) (es : List Expr)
    (failure : Option Error) :
    printable ⟨e :: es, failure⟩ =
      ⟨e :: (printable ⟨es, failure⟩).statements, (printable ⟨es, failure⟩).failure⟩ := by
  simp only [printable, List.takeWhile_cons, h, if_true, List.length_cons, Nat.add_right_cancel_iff]
  split <;> rfl

theorem printable_of_not_fits [Stack] (h : e.fits Stack.printing = false) (es : List Expr)
    (failure : Option Error) :
    printable ⟨e :: es, failure⟩ = ⟨[], some .excessiveRecursion⟩ := by
  simp [printable, h]

end Reading

namespace Showing

variable {table : FunctionTable} {q last : TokenQueue} {es : List Expr} {failure : Option Error}
  {l l' : Log} {r : Run}

/-- At each point the offer of the queue, the depth of the statement and its run tell which rule
applies. -/
theorem unique [Stack] (h : Showing table q l) (h' : Showing table q l') : l = l' := by
  induction h generalizing l' with
  | done hoffer => cases h' <;> simp_all
  | unreadable hoffer => cases h' <;> simp_all
  | tooDeep hoffer hdeep => cases h' <;> simp_all
  | failed hoffer hfits hrun => cases h' <;> simp_all
  | ran hoffer hfits hrun _ ih =>
    cases h' with
    | ran hoffer' _ hrun' hrest =>
      obtain ⟨rfl, rfl⟩ : _ ∧ _ := by simpa [hoffer] using hoffer'
      obtain ⟨rfl, rfl⟩ : _ ∧ _ := by simpa [hrun] using hrun'
      rw [ih hrest]
    | done | unreadable | tooDeep | failed => simp_all

/-- Cutting the line off before its first statement that is too deep makes no difference. -/
theorem of_reads [Stack] (hreads : q.Reads es last) (hlast : last.statement? = failure.map .error) :
    Showing table q (Run.reading table (Reading.printable ⟨es, failure⟩)).log := by
  induction hreads generalizing table with
  | nil =>
    cases failure with
    | none => exact .done hlast
    | some err => exact .unreadable hlast
  | @cons q rest last e es hoffer _ ih =>
    cases hfits : e.fits Stack.printing with
    | false =>
      rw [Reading.printable_of_not_fits hfits]
      exact .tooDeep hoffer hfits
    | true =>
      rw [Reading.printable_cons hfits]
      cases hrun : table.run e with
      | error err =>
        simp only [Run.reading, Run.statements, hrun]
        exact .failed hoffer hfits hrun
      | ok done =>
        obtain ⟨effect, next⟩ := done
        simp only [Run.reading, Run.statements, hrun]
        have hran := Showing.ran hoffer hfits hrun (ih hlast)
        simpa [Run.log, Run.stepEntries, Run.reading] using hran

theorem iff_line [Stack] (table : FunctionTable) (source : String) (l : Log) :
    Showing table (.ofLine source) l ↔
      l = (Run.reading table (Reading.ofLine source).printable).log := by
  obtain ⟨last, hreads, hlast⟩ := (TokenQueue.hasSigns_ofLine source).reads
  have hline : Showing table (.ofLine source)
      (Run.reading table (Reading.ofLine source).printable).log := of_reads hreads hlast
  constructor
  · intro h
    exact h.unique hline
  · rintro rfl
    exact hline

theorem erase [Stack] (h : Showing table q l) (h' : Loop table q r) (hr : r.Showable) :
    l.erase = r.log.erase := by
  induction h generalizing r with
  | done hoffer =>
    cases h' with
    | done => rfl
    | unreadable hoffer' | failed hoffer' | ran hoffer' => simp_all
  | unreadable hoffer =>
    cases h' with
    | unreadable hoffer' =>
      obtain rfl : _ = _ := by simpa [hoffer] using hoffer'
      rfl
    | done hoffer' | failed hoffer' | ran hoffer' => simp_all
  | tooDeep hoffer hdeep =>
    cases h' with
    | failed hoffer' hrun =>
      obtain ⟨rfl, rfl⟩ : _ ∧ _ := by simpa [hoffer] using hoffer'
      rcases hr.interrupted _ rfl _ rfl with hfits | rfl
      · rw [hdeep] at hfits
        cases hfits
      · rfl
    | ran hoffer' hrun =>
      obtain ⟨rfl, rfl⟩ : _ ∧ _ := by simpa [hoffer] using hoffer'
      have hfits := hr.completed _ (List.mem_cons_self ..)
      rw [hdeep] at hfits
      cases hfits
    | done hoffer' | unreadable hoffer' => simp_all
  | failed hoffer hfits hrun =>
    cases h' with
    | failed hoffer' hrun' =>
      obtain ⟨rfl, rfl⟩ : _ ∧ _ := by simpa [hoffer] using hoffer'
      obtain rfl : _ = _ := by simpa [hrun] using hrun'
      rfl
    | done hoffer' | unreadable hoffer' | ran hoffer' => simp_all
  | ran hoffer hfits hrun _ ih =>
    cases h' with
    | ran hoffer' hrun' hrest =>
      obtain ⟨rfl, rfl⟩ : _ ∧ _ := by simpa [hoffer] using hoffer'
      obtain ⟨rfl, rfl⟩ : _ ∧ _ := by simpa [hrun] using hrun'
      have hfurther := ih hrest
        ⟨fun step hstep => hr.completed step (List.mem_cons_of_mem _ hstep), hr.interrupted⟩
      simp_all [Log.erase, Run.log, Run.stepEntries]
    | done hoffer' | unreadable hoffer' | failed hoffer' => simp_all

end Showing

namespace ShowingLines

variable {table : FunctionTable} {sources : List String} {l l' : Log}

theorem unique [Stack] (h : ShowingLines table sources l) (h' : ShowingLines table sources l') :
    l = l' := by
  induction h generalizing l' with
  | nil =>
    cases h'
    rfl
  | cons hline _ ih =>
    cases h' with
    | cons hline' hlines' =>
      obtain rfl := hline.unique hline'
      rw [ih hlines']

theorem exists_log [Stack] (table : FunctionTable) (sources : List String) :
    ∃ l, ShowingLines table sources l ∧ Transcript.ofLines true table sources = l.transcript := by
  induction sources generalizing table with
  | nil => exact ⟨_, .nil, rfl⟩
  | cons source sources ih =>
    have hline := (Showing.iff_line table source _).2 rfl
    obtain ⟨l, hlines, htranscript⟩ :=
      ih (Run.reading table (Reading.ofLine source).printable).table
    refine ⟨_, .cons hline hlines, ?_⟩
    rw [Transcript.ofLines_cons]
    simp only [if_true, Run.printed_true, htranscript]
    simp [Log.transcript, Run.log]

theorem erase [Stack] (h : ShowingLines table sources l)
    (hr : ∀ r ∈ Run.lines table sources, r.Showable) :
    Transcript.ofLines false table sources = l.erase.transcript := by
  induction h with
  | nil => rfl
  | @cons table source sources l l' hline _ ih =>
    obtain ⟨hfirst, hrest⟩ := List.forall_mem_cons.1 hr
    have herase := hline.erase (Loop.line table source) hfirst
    have htable : l.table = (Run.line table source).table := congrArg Log.table herase
    have hsucceeded : l.succeeded = (Run.line table source).interruption.isNone :=
      congrArg Log.succeeded herase
    have hprinted : (Run.line table source).printed false = l.erase.transcript.printed := by
      rw [herase, Run.printed_false_erase]
    have hlines := ih (by rwa [htable])
    rw [htable] at hlines
    have hrun : Run.reading table (Reading.ofLine source) = Run.line table source := rfl
    rw [Transcript.ofLines_cons]
    simp only [Bool.false_eq_true, if_false, hrun, hprinted, hlines, ← hsucceeded]
    simp [Log.transcript, Log.erase]

end ShowingLines

/-- The command with shown statements runs lines as its own loop does, in which each statement is
shown just before it runs, and one that is too deep to be shown ends its line instead. If no
statement that runs is so deep, or fails for its depth anyway, then showing only observes: the
functions at the end and the success are the same as without, and what is printed without is what
is left when the shown statements are deleted. -/
theorem transcript_shown [Stack] (table : FunctionTable) (sources : List String) :
    let shown := Transcript.ofLines true table sources
    let plain := Transcript.ofLines false table sources
    ∃ l, (∀ l', ShowingLines table sources l' ↔ l' = l) ∧ shown = l.transcript ∧
      ((∀ r ∈ Run.lines table sources, r.Showable) →
        plain.table = shown.table ∧ plain.succeeded = shown.succeeded ∧
          plain.printed = (l.entries.filter fun x => !x.isTree).map LogEntry.text) := by
  intro shown plain
  obtain ⟨l, hlog, hshown⟩ := ShowingLines.exists_log table sources
  refine ⟨l, fun l' => ⟨fun h => h.unique hlog, fun h => h ▸ hlog⟩, hshown, fun hr => ?_⟩
  have hplain : plain = l.erase.transcript := hlog.erase hr
  rw [hplain, show shown = l.transcript from hshown]
  exact ⟨rfl, rfl, rfl⟩

theorem transcript_shown_interleaved :
    let sources := ["f(x)=x,f(2),y,4", "f(1),1+"]
    let shown := Transcript.ofLines true .empty sources
    let plain := Transcript.ofLines false .empty sources
    (∀ r ∈ Run.lines .empty sources, r.Showable) ∧
      plain.table = shown.table ∧ plain.succeeded = shown.succeeded ∧
      shown.printed =
        ["=(f(x),x)", "f(2)", "2", "y", "Unknown value y.",
          "f(1)", "1", "Unexpected end of input."] ∧
      plain.printed = ["2", "Unknown value y.", "1", "Unexpected end of input."] := by
  intro sources shown plain
  have hr : ∀ r ∈ Run.lines .empty sources, r.Showable := by
    have hfirst : (Run.line .empty "f(x)=x,f(2),y,4").Showable :=
      ⟨by decide +kernel, by decide +kernel⟩
    have hsecond : (Run.line (Run.line .empty "f(x)=x,f(2),y,4").table "f(1),1+").Showable :=
      ⟨by decide +kernel, by decide +kernel⟩
    simpa [sources, Run.lines] using ⟨hfirst, hsecond⟩
  obtain ⟨l, -, -, hobserves⟩ := transcript_shown .empty sources
  obtain ⟨htable, hsucceeded, -⟩ := hobserves hr
  exact ⟨hr, htable, hsucceeded, by decide +kernel, by decide +kernel⟩

namespace Expr

def negated (e : Expr) : Nat → Expr
  | 0 => e
  | n + 1 => .operator .negate [negated e n]

theorem lt_of_fits_negated {e : Expr} {n depth : Nat} (h : (negated e n).fits depth = true) :
    n < depth := by
  induction n generalizing depth with
  | zero =>
    cases depth with
    | zero => cases e <;> simp [negated, fits] at h
    | succ depth => omega
  | succ n ih =>
    cases depth with
    | zero => simp [negated, fits] at h
    | succ depth =>
      simp only [negated, fits, allFit, Bool.and_true] at h
      have hlt := ih h
      omega

end Expr

theorem Scan.Yields.negated {limit : Limit} {d : Nat} {e : Expr} {text rest : List Char}
    (h : Yields text rest fun ts => Derives limit d .unary ts e) (n : Nat) :
    Yields (List.replicate n '-' ++ text) rest fun ts =>
      Derives limit d .unary ts (e.negated n) := by
  induction n with
  | zero => exact h
  | succ n ih =>
    rw [List.replicate_succ, List.cons_append]
    refine append minus ih ?_
    rintro _ us ⟨t, rfl, ht, -⟩ hus
    exact .signed (by decide) ht hus

def deepDefinition (n : Nat) : String :=
  String.ofList ("f = ".toList ++ (List.replicate n '-' ++ ['1']))

theorem Reading.ofLine_deepDefinition [Stack] (n : Nat) : ∃ one : Number,
    ofLine (deepDefinition n) =
      ⟨[.operator .assign [.call "f" [], (Expr.constant one).negated n]], none⟩ := by
  let one : Numeral := ⟨['1'], none, none, by simp, by simp⟩
  let d : Definition := ⟨"f", ⟨[], (Expr.constant one.decimal.nearest).negated n⟩⟩
  let text := String.ofList (List.replicate n '-' ++ one.chars)
  have hchars : text.toList = List.replicate n '-' ++ one.chars := String.toList_ofList
  have hone : Phrase Stack.arguments .unary one.chars (.constant one.decimal.nearest) :=
    (Phrase.numeral one).of_rank_le (by decide)
  have hbody : Phrase Stack.arguments .assign text.toList d.formula.body := by
    rw [hchars]
    exact (Phrase.of_yields (hone.yields_end.negated n)).of_rank_le (by decide)
  have hname : IsBareword "f" := ⟨⟨by decide, nofun⟩, by decide⟩
  have htext : deepDefinition n = d.name ++ " = " ++ text := by
    have hleft : "f = ".toList = d.name.toList ++ " = ".toList := by
      show "f = ".toList = "f".toList ++ " = ".toList
      decide
    have hdeep : (deepDefinition n).toList = "f = ".toList ++ (List.replicate n '-' ++ one.chars) :=
      String.toList_ofList
    refine String.toList_inj.1 ?_
    rw [hdeep, hleft, String.toList_append, String.toList_append, hchars]
  rw [htext]
  exact ⟨_, Definition.reading_line (.inr ⟨rfl, rfl⟩) (by simpa [d] using hname)
    Stack.arguments_one hbody⟩

/-- With twelve thousand minus signs the definition is made if statements are not shown. If they
are, the line fails, and the function is not defined. -/
theorem transcript_shown_too_deep :
    let source := deepDefinition 12000
    let shown := Transcript.ofLines true .empty [source]
    let plain := Transcript.ofLines false .empty [source]
    plain.succeeded = true ∧ plain.printed = [] ∧ plain.table.names = ["f"] ∧
      shown.succeeded = false ∧ shown.printed = ["Excessive recursion."] ∧
      shown.table.names = [] := by
  intro source shown plain
  obtain ⟨one, hread⟩ := Reading.ofLine_deepDefinition 12000
  have hdeep : (Expr.operator .assign [.call "f" [], (Expr.constant one).negated 12000]).fits
      Stack.printing = false := by
    refine Bool.eq_false_iff.2 fun hfits => ?_
    simp only [Stack.printing, Expr.fits, Expr.allFit, Bool.and_true, Bool.true_and] at hfits
    exact absurd (Expr.lt_of_fits_negated hfits) (by decide)
  have hplain : plain =
      ⟨[], true, FunctionTable.empty.define "f" ⟨[], (Expr.constant one).negated 12000⟩⟩ := by
    simp only [plain, source, Transcript.ofLines_cons, hread]
    rfl
  have hshown : shown = ⟨["Excessive recursion."], false, .empty⟩ := by
    simp only [shown, source, Transcript.ofLines_cons, hread, if_true,
      Reading.printable_of_not_fits hdeep]
    rfl
  exact ⟨congrArg Transcript.succeeded hplain, congrArg Transcript.printed hplain,
    congrArg (fun t => t.table.names) hplain, congrArg Transcript.succeeded hshown,
    congrArg Transcript.printed hshown, congrArg (fun t => t.table.names) hshown⟩

end Reckon
