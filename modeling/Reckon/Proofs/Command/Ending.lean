import Reckon.Proofs.Session.Recency
import Reckon.Proofs.Session.Showing
/-!
How the command ends. A line prints an error if and only if its run is cut short, so the exit code
tells whether some line failed, and the listing shows each function by its last definition
(`exit_status`). That takes bodies that can be printed: one that is too deep for it ends the
listing and fails a command that has printed no error (`exit_status_too_deep`).
-/
set_option autoImplicit false

namespace Reckon

def LogEntry.isMessage : LogEntry → Bool
  | .tree _ => false
  | .value _ => false
  | .message _ => true

namespace Run

/-- The runs of lines one after another by the command. -/
def commandLines [Stack] (showTree : Bool) : FunctionTable → List String → List Run
  | _, [] => []
  | table, source :: sources =>
    let reading := Reading.ofLine source
    let r := Run.reading table (if showTree then reading.printable else reading)
    r :: commandLines showTree r.table sources

def entries (showTree : Bool) (r : Run) : List LogEntry :=
  if showTree then r.log.entries else r.log.erase.entries

variable {r : Run} {showTree : Bool}

theorem printed_eq_entries (showTree : Bool) (r : Run) :
    r.printed showTree = (r.entries showTree).map LogEntry.text := by
  cases showTree with
  | false => exact r.printed_false_erase
  | true => exact r.printed_true

theorem any_isMessage_entries (showTree : Bool) (r : Run) :
    (r.entries showTree).any LogEntry.isMessage = r.interruption.isSome := by
  have hsteps : (r.completed.flatMap stepEntries).any LogEntry.isMessage = false := by
    simp [stepEntries, LogEntry.isMessage]
  have hlog : r.log.entries.any LogEntry.isMessage = r.interruption.isSome := by
    cases h : r.interruption with
    | none => simp [log, h, hsteps]
    | some i => simp [log, h, lastEntries, LogEntry.isMessage]
  cases showTree with
  | true => exact hlog
  | false =>
    -- Only the shown statements are left out, and no error is one of them.
    have herase : ∀ xs : List LogEntry, (xs.filter fun x => !x.isTree).any LogEntry.isMessage =
        xs.any LogEntry.isMessage := by
      intro xs
      induction xs with
      | nil => rfl
      | cons x xs ih => cases x <;> simp_all [LogEntry.isMessage]
    exact (herase _).trans hlog

end Run

theorem Transcript.ofLines_eq [Stack] (showTree : Bool) (table : FunctionTable)
    (sources : List String) :
    ofLines showTree table sources =
      let runs := Run.commandLines showTree table sources
      ⟨(runs.flatMap (Run.entries showTree)).map LogEntry.text,
        !(runs.flatMap (Run.entries showTree)).any LogEntry.isMessage,
        table.defineAll ((runs.flatMap Run.executed).filterMap Expr.definition?)⟩ := by
  induction sources generalizing table with
  | nil => rfl
  | cons source sources ih =>
    have htable : ∀ reading, (Run.reading table reading).table =
        table.defineAll ((Run.reading table reading).executed.filterMap Expr.definition?) :=
      fun reading => Run.table_statements reading.failure table reading.statements
    rw [ofLines_cons]
    simp only [ih, Run.commandLines, List.flatMap_cons, List.map_append, List.any_append,
      List.filterMap_append, Bool.not_or, FunctionTable.defineAll_append, ← htable,
      Run.printed_eq_entries, Run.any_isMessage_entries, Option.not_isSome]

theorem Text.Sorted.lookup?_eq_some_iff {α : Type} {name : String} {value : α}
    {entries : List (String × α)} (h : Sorted entries) :
    lookup? name entries = some value ↔ (name, value) ∈ entries := by
  induction entries with
  | nil => simp [lookup?]
  | cons entry entries ih =>
    obtain ⟨hhead, htail⟩ := List.pairwise_cons.1 h
    by_cases hname : entry.1 = name
    · subst hname
      have hnone : (entry.1, value) ∉ entries := by
        intro hmem
        have hself := hhead _ hmem
        rw [precedes_irrefl] at hself
        cases hself
      obtain ⟨name, found⟩ := entry
      simp [lookup?, hnone, eq_comm]
    · have hne : (name, value) ≠ entry := fun heq => hname (heq ▸ rfl)
      simp [lookup?, hname, ih htail, hne]

namespace FunctionTable

variable {name : String} {f : Formula} {ds : List Definition}

theorem mem_entries_iff (table : FunctionTable) :
    (name, f) ∈ table.entries ↔ table.find? name = some f :=
  table.sorted.lookup?_eq_some_iff.symm

/-- Among the definitions it is the last one of its name. -/
def IsLast (d : Definition) (ds : List Definition) : Prop :=
  ∃ before after, ds = before ++ d :: after ∧ ∀ d' ∈ after, d'.name ≠ d.name

theorem exists_isLast (h : ∃ d ∈ ds, d.name = name) : ∃ d, d.name = name ∧ IsLast d ds := by
  induction ds with
  | nil => simp at h
  | cons d ds ih =>
    by_cases hlater : ∃ d ∈ ds, d.name = name
    · obtain ⟨last, hname, before, after, rfl, hafter⟩ := ih hlater
      exact ⟨last, hname, d :: before, after, rfl, hafter⟩
    · have hd : d.name = name := by
        obtain ⟨d', hd', hname⟩ := h
        rcases List.mem_cons.1 hd' with rfl | hd'
        · exact hname
        · exact absurd ⟨d', hd', hname⟩ hlater
      exact ⟨d, hd, [], ds, rfl, fun d' hd' hname => hlater ⟨d', hd', hname.trans hd⟩⟩

theorem find?_defineAll_iff :
    (empty.defineAll ds).find? name = some f ↔ IsLast ⟨name, f⟩ ds := by
  constructor
  · intro hfind
    by_cases hnames : ∃ d ∈ ds, d.name = name
    · obtain ⟨d, rfl, before, after, rfl, hafter⟩ := exists_isLast hnames
      have hlast : (empty.defineAll (before ++ d :: after)).find? d.name = some d.formula :=
        find?_defineAll_last before hafter
      obtain rfl : d.formula = f := Option.some.inj (hlast.symm.trans hfind)
      exact ⟨before, after, rfl, hafter⟩
    · have hnone : (empty.defineAll ds).find? name = empty.find? name :=
        find?_defineAll_of_ne fun d hd hname => hnames ⟨d, hd, hname⟩
      rw [hnone] at hfind
      cases hfind
  · rintro ⟨before, after, rfl, hafter⟩
    exact find?_defineAll_last before hafter

end FunctionTable

namespace Invocation

variable {i : Invocation} {lookup : String → FileLookup} {input : String} {sources : List String}
  {failure : InputFailure}

def help (i : Invocation) : List String := if i.listOperators then operatorHelp else []

/-- Only the registry is listed, and nothing is run. -/
def ListsOnly (i : Invocation) : Prop := i.listOperators = true ∧ i.expressions = []

instance : Decidable i.ListsOnly := inferInstanceAs (Decidable (_ ∧ _))

def functions (i : Invocation) (table : FunctionTable) : List (String × Formula) :=
  if i.listFunctions then table.entries else []

def ending [Stack] (i : Invocation) (sources : List String) : Ending :=
  let t := Transcript.ofLines i.showTree .empty sources
  let listable := (i.functions t.table).takeWhile fun entry => entry.2.body.fits Stack.printing
  ⟨if t.succeeded && listable.length == (i.functions t.table).length then 0 else 1,
    concatLines (t.printed ++ listable.map listed)⟩

theorem concatLines_append (printed printed' : List String) :
    concatLines (printed ++ printed') = concatLines printed ++ concatLines printed' := by
  simp [concatLines, String.join_append]

theorem perform_of_listsOnly [Stack] (h : i.ListsOnly) :
    i.perform lookup input = .ok ⟨0, concatLines operatorHelp⟩ := by
  simp [perform, h.1, h.2]

theorem perform_eq [Stack] (h : ¬ i.ListsOnly) :
    i.perform lookup input =
      match i.lines lookup input with
      | .error failure => .error ⟨failure, concatLines i.help⟩
      | .ok sources =>
        .ok ⟨(i.ending sources).exitCode, concatLines i.help ++ (i.ending sources).output⟩ := by
  have hlists : (i.listOperators && i.expressions.isEmpty) = false := by
    refine Bool.eq_false_iff.2 fun hlists => h ?_
    simpa [ListsOnly] using hlists
  rw [perform, hlists]
  simp only [Bool.false_eq_true, if_false, ending, help, functions, List.append_assoc,
    concatLines_append]
  rfl

theorem perform_of_lines [Stack] (h : ¬ i.ListsOnly) (hlines : i.lines lookup input = .ok sources) :
    i.perform lookup input =
      .ok ⟨(i.ending sources).exitCode, concatLines i.help ++ (i.ending sources).output⟩ := by
  rw [perform_eq h, hlines]

/-- The only expression is the name of a file, and its text or the file itself cannot be had. -/
inductive FailsToRead (i : Invocation) (lookup : String → FileLookup) : InputFailure → Prop where
  | notText {name : String} {content : ByteArray} (hname : i.expressions = [name])
      (hfound : lookup name = .found content) (htext : String.fromUTF8? content = none) :
      FailsToRead i lookup .notText
  | lookupRefused {name : String} (hname : i.expressions = [name])
      (hrefused : lookup name = .refused) : FailsToRead i lookup .lookupRefused

theorem lines_eq_error_iff (input : String) :
    i.lines lookup input = .error failure ↔ i.FailsToRead lookup failure := by
  constructor
  · intro h
    unfold lines at h
    split at h
    · cases h
    · rename_i name hname
      split at h
      · cases h
      · rename_i content hfound
        split at h
        · cases h
        · rename_i htext
          cases h
          exact .notText hname hfound htext
      · rename_i hrefused
        cases h
        exact .lookupRefused hname hrefused
    · cases h
  · rintro (⟨hname, hfound, htext⟩ | ⟨hname, hrefused⟩)
    · simp only [lines, hname, hfound, htext]
    · simp only [lines, hname, hrefused]

theorem perform_eq_error_iff [Stack] {breakdown : Breakdown} :
    i.perform lookup input = .error breakdown ↔
      i.FailsToRead lookup breakdown.failure ∧ breakdown.output = concatLines i.help := by
  rw [← lines_eq_error_iff input]
  obtain ⟨failure, output⟩ := breakdown
  by_cases h : i.ListsOnly
  · simp [perform_of_listsOnly h, lines, h.2]
  · rw [perform_eq h]
    cases i.lines lookup input with
    | ok sources => simp
    | error other => simp [eq_comm]

theorem ending_eq [Stack] (hlistable : ∀ entry ∈ i.functions (Transcript.ofLines i.showTree .empty
      sources).table, entry.2.body.fits Stack.printing = true) :
    i.ending sources =
      let t := Transcript.ofLines i.showTree .empty sources
      ⟨if t.succeeded then 0 else 1,
        concatLines (t.printed ++ (i.functions t.table).map listed)⟩ := by
  have hall := List.takeWhile_eq_self_iff.2 hlistable
  simp [ending, hall]

end Invocation

/-- The command ends with 0 if no line has printed an error and with 1 otherwise, unless its only
argument is the name of a file that is not UTF-8 or a name that cannot be looked up; if it is only
to list the registry it runs no line. If functions are to be listed and their bodies are not too
deep to be printed, they come last, by name, each with its last definition. -/
theorem exit_status [Stack] {arguments : List String} {i : Invocation}
    (hi : Invocation.ofArguments? arguments = some i) (lookup : String → FileLookup)
    (input : String) :
    (∀ breakdown, command arguments lookup input = .error breakdown ↔
      i.FailsToRead lookup breakdown.failure ∧
        breakdown.output = Invocation.concatLines i.help) ∧
    (i.ListsOnly → command arguments lookup input =
      .ok ⟨0, Invocation.concatLines Invocation.operatorHelp⟩) ∧
    ∀ sources, ¬ i.ListsOnly → i.lines lookup input = .ok sources →
      let runs := Run.commandLines i.showTree .empty sources
      let entries := runs.flatMap (Run.entries i.showTree)
      let definitions := (runs.flatMap Run.executed).filterMap Expr.definition?
      let table := FunctionTable.empty.defineAll definitions
      (i.listFunctions = true → ∀ f ∈ table.entries, f.2.body.fits Stack.printing = true) →
        command arguments lookup input =
          .ok ⟨if entries.any LogEntry.isMessage then 1 else 0,
            Invocation.concatLines (i.help ++ entries.map LogEntry.text ++
              if i.listFunctions then table.entries.map Invocation.listed else [])⟩ ∧
        Text.Sorted table.entries ∧
        ∀ name f, (name, f) ∈ table.entries ↔ FunctionTable.IsLast ⟨name, f⟩ definitions := by
  have hcommand : command arguments lookup input = i.perform lookup input := by
    simp only [command, hi]
  refine ⟨fun breakdown => hcommand ▸ Invocation.perform_eq_error_iff,
    fun h => hcommand ▸ Invocation.perform_of_listsOnly h, ?_⟩
  intro sources honly hsources runs entries definitions table hlistable
  have ht : Transcript.ofLines i.showTree .empty sources =
      ⟨entries.map LogEntry.text, !entries.any LogEntry.isMessage, table⟩ :=
    Transcript.ofLines_eq i.showTree .empty sources
  have hending : i.ending sources = _ := Invocation.ending_eq (by
    rw [ht]
    intro entry hentry
    unfold Invocation.functions at hentry
    split at hentry
    · rename_i hlist
      exact hlistable hlist entry hentry
    · cases hentry)
  refine ⟨?_, table.sorted, fun name f => ?_⟩
  · have hlisted : (i.functions table).map Invocation.listed =
        if i.listFunctions then table.entries.map Invocation.listed else [] := by
      unfold Invocation.functions
      split <;> rfl
    have hcode : (if (!entries.any LogEntry.isMessage) = true then 0 else 1) =
        if entries.any LogEntry.isMessage = true then 1 else 0 := by
      cases entries.any LogEntry.isMessage <;> rfl
    rw [hcommand, Invocation.perform_of_lines honly hsources, hending, ht]
    simp only [hlisted, hcode, Invocation.concatLines_append, String.append_assoc]
  · rw [FunctionTable.mem_entries_iff]
    exact FunctionTable.find?_defineAll_iff

theorem exit_status_redefined :
    let arguments := ["--list", "g(y)=y,f(x)=x", "f(1,2)", "f=g(3)"]
    command arguments (fun _ => .missing) "" =
      .ok ⟨1,
        "Wrong number of arguments for f(): expected 1 but got 2.\nf() = g(3)\ng(y) = y\n"⟩ := by
  intro arguments
  let i : Invocation := ⟨["g(y)=y,f(x)=x", "f(1,2)", "f=g(3)"], false, true, false⟩
  have hi : Invocation.ofArguments? arguments = some i := by decide +kernel
  have honly : ¬ i.ListsOnly := by decide
  obtain ⟨hending, -, -⟩ := (exit_status hi (fun _ => .missing) "").2.2 i.expressions honly rfl
    (by decide +kernel)
  exact hending.trans (by decide +kernel)

namespace Text

variable {isBreak : Char → Bool} {cs current : List Char}

theorem linesOnto_of_forall (h : ∀ c ∈ cs, isBreak c = false) (hne : current ++ cs ≠ []) :
    linesOnto isBreak [] current cs = [current.reverse ++ cs] := by
  induction cs generalizing current with
  | nil =>
    have hcurrent : current ≠ [] := by simpa using hne
    simp [linesOnto, hcurrent]
  | cons c cs ih =>
    obtain ⟨hc, hcs⟩ := List.forall_mem_cons.1 h
    rw [linesOnto, hc, if_neg (by decide), ih hcs (by simp), List.reverse_cons, List.append_assoc,
      List.singleton_append]

theorem inputLines_of_forall {text : String} (h : ∀ c ∈ text.toList, isLineFeed c = false)
    (hne : text.toList ≠ []) : inputLines text = [text] := by
  rw [inputLines, lines, linesOnto_of_forall h hne]
  simp

end Text

theorem Text.inputLines_deepDefinition (n : Nat) :
    Text.inputLines (deepDefinition n) = [deepDefinition n] := by
  have htext : (deepDefinition n).toList = "f = ".toList ++ (List.replicate n '-' ++ ['1']) :=
    String.toList_ofList
  have hall : (("f = ".toList ++ ['-', '1']).all fun c => !Text.isLineFeed c) = true := by decide
  refine Text.inputLines_of_forall (fun c hc => ?_) (by simp [htext])
  have hmem : c ∈ "f = ".toList ++ ['-', '1'] := by
    simp only [htext, List.mem_append, List.mem_replicate, List.mem_cons] at hc ⊢
    rcases hc with hc | ⟨-, rfl⟩ | hc
    · exact .inl hc
    · exact .inr (.inl rfl)
    · exact .inr (.inr hc)
  simpa using List.all_eq_true.1 hall c hmem

/-- With twelve thousand minus signs in its body the function is defined and no error is printed,
but it is not listed and the command fails. -/
theorem exit_status_too_deep :
    let input := deepDefinition 12000
    let runs := Run.commandLines false .empty [input]
    runs.flatMap (Run.entries false) = [] ∧
      ((runs.flatMap Run.executed).filterMap Expr.definition?).map Definition.name = ["f"] ∧
      command ["--list"] (fun _ => .missing) input = .ok ⟨1, ""⟩ := by
  intro input runs
  obtain ⟨one, hread⟩ := Reading.ofLine_deepDefinition 12000
  let body := (Expr.constant one).negated 12000
  let table := FunctionTable.empty.define "f" ⟨[], body⟩
  have hruns : runs = [⟨[(.operator .assign [.call "f" [], body],
      .defined ⟨"f", ⟨[], body⟩⟩ false)], none, table⟩] := by
    simp only [runs, input, Run.commandLines, hread]
    rfl
  have hdeep : body.fits Stack.printing = false :=
    Bool.eq_false_iff.2 fun hfits => absurd (Expr.lt_of_fits_negated hfits) (by decide)
  have ht : Transcript.ofLines false .empty [input] = ⟨[], true, table⟩ := by
    simp only [input, Transcript.ofLines_cons, hread]
    rfl
  let i : Invocation := ⟨[], false, true, false⟩
  have hi : Invocation.ofArguments? ["--list"] = some i := by decide
  refine ⟨?_, ?_, ?_⟩
  · rw [hruns]
    rfl
  · rw [hruns]
    rfl
  · have hentries : i.functions table = [("f", ⟨[], body⟩)] := rfl
    have hending : i.ending [input] = ⟨1, ""⟩ := by
      have hshow : i.showTree = false := rfl
      simp only [Invocation.ending, hshow, ht, hentries, List.takeWhile_cons, hdeep]
      rfl
    have hlines : i.lines (fun _ => .missing) input = .ok [input] :=
      congrArg Except.ok (Text.inputLines_deepDefinition 12000)
    have hcommand : command ["--list"] (fun _ => .missing) input =
        i.perform (fun _ => .missing) input := by simp only [command, hi]
    rw [hcommand, Invocation.perform_of_lines (by decide : ¬ i.ListsOnly) hlines, hending]
    rfl

end Reckon
