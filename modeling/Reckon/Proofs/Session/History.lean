import Reckon.Proofs.Session.Interleaving
import Reckon.Proofs.Statement.Cache
set_option autoImplicit false

namespace Reckon

namespace FunctionTable

variable {table next last : FunctionTable} {e : Expr} {effect : Effect} {err : Error}
  {steps steps' : List (Expr × Effect)} {ds : List Definition} {name : String}

/-- The statements run one after another without an error, each with what it does, and leave the
last table. -/
inductive Completes [Stack] : FunctionTable → List (Expr × Effect) → FunctionTable → Prop where
  | nil {table : FunctionTable} : Completes table [] table
  | cons {table next last : FunctionTable} {e : Expr} {effect : Effect}
      {steps : List (Expr × Effect)} :
      table.run e = .ok (effect, next) → Completes next steps last →
      Completes table ((e, effect) :: steps) last

def defineAll (table : FunctionTable) (ds : List Definition) : FunctionTable :=
  ds.foldl (fun table d => table.define d.name d.formula) table

theorem defineAll_append (table : FunctionTable) (ds ds' : List Definition) :
    table.defineAll (ds ++ ds') = (table.defineAll ds).defineAll ds' := List.foldl_append

theorem find?_defineAll_of_ne (h : ∀ d ∈ ds, d.name ≠ name) :
    (table.defineAll ds).find? name = table.find? name := by
  induction ds generalizing table with
  | nil => rfl
  | cons d ds ih =>
    obtain ⟨hd, hds⟩ := List.forall_mem_cons.1 h
    rw [defineAll, List.foldl_cons]
    exact (ih hds).trans ((find?_define table d.name d.formula name).trans (if_neg hd))

theorem find?_defineAll_last (ds : List Definition) {d : Definition} {ds' : List Definition}
    (h : ∀ d' ∈ ds', d'.name ≠ d.name) :
    (table.defineAll (ds ++ d :: ds')).find? d.name = some d.formula := by
  rw [defineAll_append, defineAll, List.foldl_cons]
  exact (find?_defineAll_of_ne h).trans
    ((find?_define _ d.name d.formula d.name).trans (if_pos rfl))

theorem isSome_find?_defineAll (ds : List Definition) (h : (table.find? name).isSome) :
    ((table.defineAll ds).find? name).isSome := by
  induction ds generalizing table with
  | nil => exact h
  | cons d ds ih =>
    refine ih ?_
    rw [find?_define]
    split
    · rfl
    · exact h

theorem run_table [Stack] (h : table.run e = .ok (effect, next)) :
    next = table.defineAll e.definition?.toList := by
  unfold run at h
  split at h
  · rename_i d hd
    cases h
    rw [hd]
    rfl
  · rename_i hnone
    rw [hnone]
    split at h
    · cases h
      rfl
    · cases h

theorem run_of_definition?_eq_none [Stack] (table : FunctionTable) (hnone : e.definition? = none) :
    table.run e = (table.evaluate Stack.nesting e).map fun x => (.value x, table) := by
  rw [run, hnone]
  cases table.evaluate Stack.nesting e <;> rfl

theorem definition?_of_run_error [Stack] (h : table.run e = .error err) : e.definition? = none := by
  unfold run at h
  split at h
  · cases h
  · assumption

theorem Completes.eq_defineAll [Stack] (h : table.Completes steps last) :
    last = table.defineAll (steps.filterMap fun step => step.1.definition?) := by
  induction h with
  | nil => rfl
  | @cons table next last e effect steps hrun _ ih =>
    rw [ih, run_table hrun, ← defineAll_append]
    congr 1
    cases hd : e.definition? <;> simp [hd]

theorem Completes.isSome_find? [Stack] (h : table.Completes steps last)
    (hname : (table.find? name).isSome) : (last.find? name).isSome := by
  rw [h.eq_defineAll]
  exact isSome_find?_defineAll _ hname

theorem completes_or_fails [Stack] (table : FunctionTable) (es : List Expr) :
    (∃ steps next, es = steps.map Prod.fst ∧ table.Completes steps next) ∨
      ∃ steps e rest next err, es = steps.map Prod.fst ++ e :: rest ∧
        table.Completes steps next ∧ next.run e = .error err := by
  induction es generalizing table with
  | nil => exact .inl ⟨[], table, rfl, .nil⟩
  | cons e es ih =>
    cases hrun : table.run e with
    | error err => exact .inr ⟨[], e, es, table, err, rfl, .nil, hrun⟩
    | ok done =>
      obtain ⟨effect, next⟩ := done
      rcases ih next with ⟨steps, last, rfl, hcompletes⟩ |
        ⟨steps, e', rest, last, err, rfl, hcompletes, hfail⟩
      · exact .inl ⟨(e, effect) :: steps, last, rfl, .cons hrun hcompletes⟩
      · exact .inr ⟨(e, effect) :: steps, e', rest, last, err, rfl, .cons hrun hcompletes, hfail⟩

end FunctionTable

namespace Run

variable {failure : Option Error} {table next : FunctionTable} {e : Expr} {effect : Effect}
  {err : Error} {es : List Expr} {steps : List (Expr × Effect)}

/-- The statements that were executed: those that ran, and the one that failed. -/
def executed (r : Run) : List Expr :=
  r.completed.map Prod.fst ++ (r.interruption.bind Interruption.statement).toList

theorem executed_nil [Stack] : (statements failure table []).executed = [] := by
  cases failure <;> rfl

theorem executed_of_error [Stack] (h : table.run e = .error err) :
    (statements failure table (e :: es)).executed = [e] := by
  simp [statements, h, executed]

theorem executed_of_ok [Stack] (h : table.run e = .ok (effect, next)) :
    (statements failure table (e :: es)).executed = e :: (statements failure next es).executed := by
  simp [statements, h, executed]

theorem executed_getElem?_iff [Stack] {i : Nat} :
    (statements failure table es).executed[i]? = some e ↔
      es[i]? = some e ∧ ∃ steps next, steps.map Prod.fst = es.take i ∧
        table.Completes steps next := by
  induction es generalizing table i with
  | nil => simp [executed_nil]
  | cons e' es ih =>
    cases i with
    | zero =>
      have hfirst : (statements failure table (e' :: es)).executed[0]? = some e' := by
        cases hrun : table.run e' with
        | error err => rw [executed_of_error hrun]; rfl
        | ok done => rw [executed_of_ok hrun]; rfl
      rw [hfirst]
      exact ⟨fun h => ⟨h, [], table, rfl, .nil⟩, fun h => h.1⟩
    | succ i =>
      cases hrun : table.run e' with
      | error err =>
        rw [executed_of_error hrun]
        constructor
        · intro h
          cases h
        · rintro ⟨-, steps, next, hsteps, hcompletes⟩
          cases hcompletes with
          | nil => cases hsteps
          | cons hrun' _ =>
            simp only [List.map_cons, List.take_succ_cons, List.cons.injEq] at hsteps
            rw [hsteps.1, hrun] at hrun'
            cases hrun'
      | ok done =>
        obtain ⟨effect, next⟩ := done
        rw [executed_of_ok hrun, List.getElem?_cons_succ, ih, List.getElem?_cons_succ,
          List.take_succ_cons]
        refine and_congr_right fun _ => ⟨?_, ?_⟩
        · rintro ⟨steps, last, hsteps, hcompletes⟩
          exact ⟨(e', effect) :: steps, last, by rw [List.map_cons, hsteps], .cons hrun hcompletes⟩
        · rintro ⟨steps, last, hsteps, hcompletes⟩
          cases hcompletes with
          | nil => cases hsteps
          | cons hrun' hrest =>
            simp only [List.map_cons, List.cons.injEq] at hsteps
            rw [hsteps.1, hrun] at hrun'
            cases hrun'
            exact ⟨_, last, hsteps.2, hrest⟩

theorem table_statements [Stack] (failure : Option Error) (table : FunctionTable) (es : List Expr) :
    (statements failure table es).table =
      table.defineAll ((statements failure table es).executed.filterMap Expr.definition?) := by
  induction es generalizing table with
  | nil =>
    rw [executed_nil]
    rfl
  | cons e es ih =>
    cases hrun : table.run e with
    | error err =>
      rw [executed_of_error hrun, List.filterMap_cons, FunctionTable.definition?_of_run_error hrun]
      simp only [statements, hrun]
      rfl
    | ok done =>
      obtain ⟨effect, next⟩ := done
      have htable : (statements failure table (e :: es)).table =
          (statements failure next es).table := by simp only [statements, hrun]
      have hfilter : (e :: (statements failure next es).executed).filterMap Expr.definition? =
          e.definition?.toList ++
            (statements failure next es).executed.filterMap Expr.definition? := by
        cases hd : e.definition? <;> simp [hd]
      rw [htable, executed_of_ok hrun, hfilter, FunctionTable.defineAll_append,
        ← FunctionTable.run_table hrun]
      exact ih next

theorem statements_of_completes [Stack] (h : table.Completes steps next) :
    statements failure table (steps.map Prod.fst ++ es) =
      ⟨steps ++ (statements failure next es).completed, (statements failure next es).interruption,
        (statements failure next es).table⟩ := by
  induction h with
  | nil => rfl
  | cons hrun _ ih => simp only [List.map_cons, List.cons_append, statements, hrun, ih]

theorem statements_complete [Stack] (h : table.Completes steps next) :
    statements failure table (steps.map Prod.fst) =
      ⟨steps, failure.map fun err => ⟨none, err⟩, next⟩ := by
  have hall : statements failure table (steps.map Prod.fst ++ []) = _ := statements_of_completes h
  simpa [statements] using hall

theorem statements_failing [Stack] (h : table.Completes steps next)
    (hrun : next.run e = .error err) :
    statements failure table (steps.map Prod.fst ++ e :: es) =
      ⟨steps, some ⟨some e, err⟩, next⟩ := by
  rw [statements_of_completes h]
  simp [statements, hrun]

end Run

def Run.lines [Stack] : FunctionTable → List String → List Run
  | _, [] => []
  | table, source :: sources =>
    let r := Run.line table source
    r :: lines r.table sources

namespace FunctionTable

variable {table next : FunctionTable} {source : String} {es : List Expr}

def following [Stack] (table : FunctionTable) (sources : List String) : FunctionTable :=
  sources.foldl (fun table source => (Run.line table source).table) table

def history [Stack] (table : FunctionTable) (sources : List String) : List Expr :=
  (Run.lines table sources).flatMap Run.executed

/-- The statement with this number is executed when the line is run: it and those before it can
be read, and those before it run without an error. -/
def Executes [Stack] (table : FunctionTable) (source : String) (i : Nat) (e : Expr) : Prop :=
  ∃ steps next rest, steps.length = i ∧ table.Completes steps next ∧
    (TokenQueue.ofLine source).Reads (steps.map Prod.fst ++ [e]) rest

theorem following_eq [Stack] (table : FunctionTable) (sources : List String) :
    table.following sources =
      table.defineAll ((table.history sources).filterMap Expr.definition?) := by
  induction sources generalizing table with
  | nil => rfl
  | cons source sources ih =>
    have hline := Run.table_statements (Reading.ofLine source).failure table
      (Reading.ofLine source).statements
    calc (table.following (source :: sources))
      _ = (Run.line table source).table.following sources := rfl
      _ = (Run.line table source).table.defineAll _ := ih _
      _ = (table.defineAll ((Run.line table source).executed.filterMap Expr.definition?)).defineAll
            _ := congrArg (FunctionTable.defineAll · _) hline
      _ = table.defineAll ((table.history (source :: sources)).filterMap Expr.definition?) := by
        rw [← defineAll_append, ← List.filterMap_append]
        rfl

end FunctionTable

namespace Reading

variable {source : String} {last : TokenQueue} {es : List Expr} {failure : Option Error}

theorem ofLine_of_reads [Stack] (h : (TokenQueue.ofLine source).Reads es last)
    (hlast : last.statement? = failure.map .error) : ofLine source = ⟨es, failure⟩ := by
  obtain ⟨other, hreads, hother⟩ := (TokenQueue.hasSigns_ofLine source).reads
  obtain ⟨es', hes, hrest⟩ := h.isPrefix hreads hother
  cases hrest with
  | nil =>
    rw [List.append_nil] at hes
    have hfailure : (ofQueue Stack.arguments (.ofLine source)).failure = failure :=
      Option.map_injective (fun _ _ => Except.error.inj) (hother.symm.trans hlast)
    rw [← hes, ← hfailure]
    rfl
  | cons hoffer _ =>
    rw [hlast] at hoffer
    cases failure <;> cases hoffer

theorem exists_reads_iff [Stack] (source : String) (es : List Expr) :
    (∃ rest, (TokenQueue.ofLine source).Reads es rest) ↔
      ∃ es', (ofLine source).statements = es ++ es' := by
  obtain ⟨last, hreads, hlast⟩ := (TokenQueue.hasSigns_ofLine source).reads
  constructor
  · rintro ⟨rest, h⟩
    obtain ⟨es', hes, -⟩ := h.isPrefix hreads hlast
    exact ⟨es', hes⟩
  · rintro ⟨es', hes⟩
    have hall : (TokenQueue.ofLine source).Reads (es ++ es') last := hes ▸ hreads
    obtain ⟨rest, hfirst, -⟩ := hall.split
    exact ⟨rest, hfirst⟩

end Reading

section Session

variable {table next : FunctionTable} {source : String} {e : Expr} {es rest : List Expr}
  {steps : List (Expr × Effect)} {last : TokenQueue} {err other : Error}

theorem FunctionTable.executes_iff [Stack] {i : Nat} :
    table.Executes source i e ↔ (Run.line table source).executed[i]? = some e := by
  refine Iff.trans ?_ Run.executed_getElem?_iff.symm
  constructor
  · rintro ⟨steps, next, rest, hlength, hcompletes, hreads⟩
    obtain ⟨es', hes⟩ := (Reading.exists_reads_iff source _).1 ⟨rest, hreads⟩
    rw [hes]
    exact ⟨by simp [← hlength], steps, next, by simp [← hlength], hcompletes⟩
  · rintro ⟨hget, steps, next, hsteps, hcompletes⟩
    obtain ⟨hi, hget⟩ := List.getElem?_eq_some_iff.1 hget
    have hlength : steps.length = i := by
      have := congrArg List.length hsteps
      rw [List.length_map, List.length_take] at this
      omega
    have hall : (Reading.ofLine source).statements =
        (steps.map Prod.fst ++ [e]) ++ (Reading.ofLine source).statements.drop (i + 1) := by
      rw [hsteps, ← hget, List.take_append_getElem, List.take_append_drop]
    obtain ⟨rest, hreads⟩ := (Reading.exists_reads_iff source _).2 ⟨_, hall⟩
    exact ⟨steps, next, rest, hlength, hcompletes, hreads⟩

theorem Run.line_complete [Stack]
    (hreads : (TokenQueue.ofLine source).Reads (steps.map Prod.fst) last)
    (hlast : last.statement? = some (.error err)) (h : table.Completes steps next) :
    Run.line table source = ⟨steps, some ⟨none, err⟩, next⟩ := by
  have hline : Reading.ofLine source = ⟨steps.map Prod.fst, some err⟩ :=
    Reading.ofLine_of_reads hreads hlast
  rw [Run.line, Run.reading, hline]
  exact Run.statements_complete h

theorem Run.line_failing [Stack]
    (hreads : (TokenQueue.ofLine source).Reads (steps.map Prod.fst ++ [e]) last)
    (h : table.Completes steps next) (hrun : next.run e = .error err) :
    Run.line table source = ⟨steps, some ⟨some e, err⟩, next⟩ := by
  obtain ⟨es, hes⟩ := (Reading.exists_reads_iff source _).1 ⟨last, hreads⟩
  rw [Run.line, Run.reading, hes, List.append_assoc]
  exact Run.statements_failing h hrun

end Session

/-- What a session of lines leaves behind, wherever its lines fail. A function that was defined in
it has the definition made last among the executed statements, any other name means what it meant
before, and no name is lost. A statement is executed when it and those before it in its line can
be read and those before it have run; an error of reading comes after the statements before it,
unless one of them fails. A line that is read to its end runs as its statements do. -/
theorem session_history [Stack] (table : FunctionTable) (sources : List String) :
    (∀ before e after d, table.history sources = before ++ e :: after → e.definition? = some d →
      (∀ e' ∈ after, ∀ d', e'.definition? = some d' → d'.name ≠ d.name) →
      (table.following sources).find? d.name = some d.formula) ∧
    (∀ name, (∀ e ∈ table.history sources, ∀ d, e.definition? = some d → d.name ≠ name) →
      (table.following sources).find? name = table.find? name) ∧
    table.following sources = table.defineAll ((table.history sources).filterMap Expr.definition?) ∧
    (∀ name, (table.find? name).isSome → ((table.following sources).find? name).isSome) ∧
    (∀ steps next, table.Completes steps next → ∀ name, (table.find? name).isSome →
      (next.find? name).isSome) ∧
    (∀ source i e, (Run.line table source).executed[i]? = some e ↔ table.Executes source i e) ∧
    (∀ source r, Loop table (.ofLine source) r ↔ r = Run.line table source) ∧
    (∀ source es last err, (TokenQueue.ofLine source).Reads es last →
      last.statement? = some (.error err) →
      (∀ steps next, es = steps.map Prod.fst → table.Completes steps next →
        (Run.line table source).outcome = .error err ∧ (Run.line table source).table = next) ∧
      ∀ steps e rest next other, es = steps.map Prod.fst ++ e :: rest →
        table.Completes steps next → next.run e = .error other →
        (Run.line table source).outcome = .error other ∧ (Run.line table source).table = next) ∧
    (∀ es, (∃ steps next, es = steps.map Prod.fst ∧ table.Completes steps next) ∨
      ∃ steps e rest next err, es = steps.map Prod.fst ++ e :: rest ∧
        table.Completes steps next ∧ next.run e = .error err) ∧
    ∀ earlier source es, ((ReadingCache.after earlier).read source).1 = .ok es →
      Run.line table source = Run.statements none table es := by
  have hfollowing := table.following_eq sources
  refine ⟨?_, ?_, hfollowing, ?_, ?_, ?_, ?_, ?_, table.completes_or_fails, ?_⟩
  · intro before e after d hhistory hd hafter
    have hdefinitions : (table.history sources).filterMap Expr.definition? =
        before.filterMap Expr.definition? ++ d :: after.filterMap Expr.definition? := by
      rw [hhistory, List.filterMap_append, List.filterMap_cons, hd]
    rw [hfollowing, hdefinitions]
    refine FunctionTable.find?_defineAll_last _ ?_
    intro d' hd'
    obtain ⟨e', he', hdefinition⟩ := List.mem_filterMap.1 hd'
    exact hafter e' he' d' hdefinition
  · intro name hname
    rw [hfollowing]
    refine FunctionTable.find?_defineAll_of_ne ?_
    intro d hd
    obtain ⟨e, he, hdefinition⟩ := List.mem_filterMap.1 hd
    exact hname e he d hdefinition
  · intro name hname
    rw [hfollowing]
    exact FunctionTable.isSome_find?_defineAll _ hname
  · intro steps next hcompletes name hname
    exact hcompletes.isSome_find? hname
  · intro source i e
    exact FunctionTable.executes_iff.symm
  · intro source r
    exact Loop.iff_line table source r
  · intro source es last err hreads hlast
    constructor
    · rintro steps next rfl hcompletes
      rw [Run.line_complete hreads hlast hcompletes]
      exact ⟨rfl, rfl⟩
    · rintro steps e rest next other rfl hcompletes hrun
      rw [List.append_cons] at hreads
      obtain ⟨q, hfirst, -⟩ := hreads.split
      rw [Run.line_failing hfirst hcompletes hrun]
      exact ⟨rfl, rfl⟩
  · intro earlier source es hread
    obtain ⟨hfailure, rfl⟩ := Reading.all_eq_ok_iff.1 (ReadingCache.all_of_read_after hread)
    rw [Run.line, Run.reading, hfailure]

theorem session_history_failing :
    let table := FunctionTable.empty.following ["f='x'", "k='z'"]
    let sources := ["f='y',g(a b),f='w'", "f,h='v'"]
    (table.following sources).find? "f" = some ⟨[], .call "y" []⟩ ∧
      (table.following sources).find? "k" = some ⟨[], .call "z" []⟩ ∧
      (table.following sources).find? "h" = none ∧
      (Run.line table "f='y',g(a b),f='w'").outcome =
        .error (.misplaced (.expectingOperator "b") (some 10)) := by
  intro table sources
  obtain ⟨hlast, hother, -, -, -, -, -, herror, -, -⟩ := session_history table sources
  let e : Expr := .operator .assign [.call "f" [], .call "y" []]
  let d : Definition := ⟨"f", ⟨[], .call "y" []⟩⟩
  have hhistory : table.history sources = [] ++ e :: [.call "f" []] := by decide +kernel
  have hdefined : ∀ name ≠ "f", ∀ e ∈ table.history sources, ∀ d, e.definition? = some d →
      d.name ≠ name := by
    intro name hne e he d hd
    simp only [hhistory, List.nil_append, List.mem_cons, List.not_mem_nil, or_false] at he
    rcases he with rfl | rfl
    · cases hd
      exact hne.symm
    · cases hd
  refine ⟨?_, ?_, ?_, ?_⟩
  · refine hlast _ _ _ d hhistory rfl ?_
    intro e' he' d' hd'
    rw [List.mem_singleton.1 he'] at hd'
    cases hd'
  · exact (hother "k" (hdefined "k" (by decide))).trans rfl
  · exact (hother "h" (hdefined "h" (by decide))).trans rfl
  · obtain ⟨last, hreads, hunread⟩ := (TokenQueue.hasSigns_ofLine "f='y',g(a b),f='w'").reads
    have hstatements : (Reading.ofLine "f='y',g(a b),f='w'").statements = [e] := by decide +kernel
    have hfailure : (Reading.ofLine "f='y',g(a b),f='w'").failure =
        some (.misplaced (.expectingOperator "b") (some 10)) := by decide +kernel
    have hcompletes : table.Completes [(e, (table.adopt d).1)] (table.adopt d).2 := .cons rfl .nil
    refine ((herror _ _ last _ hreads ?_).1 [(e, _)] _ hstatements hcompletes).1
    rw [hunread]
    exact congrArg (Option.map Except.error) hfailure

end Reckon
