import Reckon.Proofs.Function.Lookup
import Reckon.Proofs.Session.History
import Reckon.Proofs.Statement.Naming
set_option autoImplicit false

namespace Reckon

theorem TokenQueue.Reads.mem_ofLine [Stack] {source : String} {es : List Expr} {rest : TokenQueue}
    {e : Expr} (h : (TokenQueue.ofLine source).Reads es rest) (he : e ∈ es) :
    e ∈ (Reading.ofLine source).statements := by
  obtain ⟨es', hes⟩ := (Reading.exists_reads_iff source es).1 ⟨rest, h⟩
  rw [hes]
  exact List.mem_append_left es' he

namespace FunctionTable

variable {table : FunctionTable} {lines : List String} {e : Expr} {name : String} {f : Formula}
  {ds : List Definition}

theorem exists_of_find?_defineAll (h : (table.defineAll ds).find? name = some f) :
    ⟨name, f⟩ ∈ ds ∨ table.find? name = some f := by
  induction ds generalizing table with
  | nil => exact .inr h
  | cons d ds ih =>
    rcases ih h with hmem | hfind
    · exact .inl (List.mem_cons_of_mem d hmem)
    · rw [find?_define] at hfind
      split at hfind
      · rename_i hname
        cases hfind
        subst hname
        exact .inl (List.mem_cons_self ..)
      · exact .inr hfind

theorem exists_of_mem_history [Stack] (h : e ∈ table.history lines) :
    ∃ source, e ∈ (Reading.ofLine source).statements := by
  induction lines generalizing table with
  | nil => cases h
  | cons source lines ih =>
    rcases List.mem_append.1 h with hline | hrest
    · obtain ⟨i, hi⟩ := List.mem_iff_getElem?.1 hline
      exact ⟨source, List.mem_of_getElem? (Run.executed_getElem?_iff.1 hi).1⟩
    · exact ih hrest

/-- The table is that of a session between two statements, after some lines and some statements
of a further one. -/
def Reachable [Stack] (table : FunctionTable) : Prop :=
  ∃ lines source steps rest, (empty.following lines).Completes steps table ∧
    (TokenQueue.ofLine source).Reads (steps.map Prod.fst) rest

/-- No function has a name of the registry, no parameter has one, and no function is called by
one. -/
def UserNamed (table : FunctionTable) : Prop :=
  ∀ name f, table.find? name = some f →
    IsUserName name ∧ (∀ parameter ∈ f.parameters, IsUserName parameter) ∧
      f.body.CallsOnly IsUserName

theorem reachable_following [Stack] (lines : List String) : (empty.following lines).Reachable :=
  ⟨lines, "", [], TokenQueue.ofLine "", .nil, .nil⟩

theorem Reachable.exists_definition [Stack] (h : table.Reachable) (hf : table.find? name = some f) :
    ∃ source, ∃ e ∈ (Reading.ofLine source).statements, e.definition? = some ⟨name, f⟩ := by
  obtain ⟨lines, source, steps, rest, hcompletes, hreads⟩ := h
  rw [hcompletes.eq_defineAll, following_eq, ← defineAll_append] at hf
  rcases exists_of_find?_defineAll hf with hmem | hempty
  · rcases List.mem_append.1 hmem with hmem | hmem
    · obtain ⟨e, he, hd⟩ := List.mem_filterMap.1 hmem
      obtain ⟨source, hsource⟩ := exists_of_mem_history he
      exact ⟨source, e, hsource, hd⟩
    · obtain ⟨step, hstep, hd⟩ := List.mem_filterMap.1 hmem
      exact ⟨source, step.1, hreads.mem_ofLine (List.mem_map_of_mem hstep), hd⟩
  · cases hempty

theorem Reachable.userNamed [Stack] (h : table.Reachable) : table.UserNamed := by
  intro name f hf
  obtain ⟨source, e, he, hd⟩ := h.exists_definition hf
  exact (Reading.callsOnly_ofLine source e he).definition hd

end FunctionTable

namespace Expr.CallsOnly

variable {table other : FunctionTable} {limit : Limit} {calls depth : Nat} {bindings : Bindings}
  {e : Expr} {use : Use}

theorem not_reaches (h : e.CallsOnly fun _ => False) :
    ¬ Reaches table limit calls bindings depth e use := by
  induction h generalizing depth with
  | constant => exact nofun
  | operator _ ih =>
    rintro (⟨-, -, hget, hreaches⟩)
    exact ih _ (List.mem_of_getElem? hget) hreaches
  | call hname => exact hname.elim

theorem evaluate_congr (h : e.CallsOnly fun _ => False) (limit : Limit)
    (table other : FunctionTable) :
    other.evaluate limit e = table.evaluate limit e :=
  FunctionTable.evaluate_congr fun _ hlooks => (h.not_reaches hlooks).elim

theorem definition?_eq_none (h : e.CallsOnly fun _ => False) : e.definition? = none := by
  cases hd : e.definition? with
  | none => rfl
  | some d => exact (h.definition hd).1.elim

end Expr.CallsOnly

/-- The built-in entries cannot be redefined. Wherever a session stands, no function and no
parameter has a name of the registry, and neither the bodies of functions nor statements, however
they are read, call a function by such a name. So a statement without calls has the same outcome
in all sessions. -/
theorem session_names [Stack] :
    (∀ lines, (FunctionTable.empty.following lines).Reachable) ∧
    (∀ table : FunctionTable, table.Reachable → ∀ name f, table.find? name = some f →
      IsUserName name ∧ (∀ parameter ∈ f.parameters, IsUserName parameter) ∧
        f.body.CallsOnly IsUserName) ∧
    (∀ (mode : ReaderMode) (q rest : TokenQueue) e,
      (∀ t ∈ q.tokens, ∃ source, t ∈ (Scan.line source).tokens) →
      q.statement mode = (.ok e, rest) → e.CallsOnly IsUserName) ∧
    (∀ source, ∀ e ∈ (Reading.ofLine source).statements, e.CallsOnly IsUserName) ∧
    (∀ earlier source es, ((ReadingCache.after earlier).read source).1 = .ok es →
      ∀ e ∈ es, e.CallsOnly IsUserName) ∧
    ∀ source, ∀ e ∈ (Reading.ofLine source).statements, (e.CallsOnly fun _ => False) →
      ∀ table other : FunctionTable, table.Reachable → other.Reachable →
        other.evaluate Stack.nesting e = table.evaluate Stack.nesting e ∧
          (other.run e).map Prod.fst = (table.run e).map Prod.fst := by
  refine ⟨FunctionTable.reachable_following, ?_, ?_, Reading.callsOnly_ofLine, ?_, ?_⟩
  · intro table htable
    exact htable.userNamed
  · intro mode q rest e hq h
    refine TokenQueue.callsOnly_of_statement (fun t ht => ?_) h
    obtain ⟨source, hsource⟩ := hq t ht
    exact Scan.hasSign_of_mem hsource
  · intro earlier source es hread
    obtain ⟨-, rfl⟩ := Reading.all_eq_ok_iff.1 (ReadingCache.all_of_read_after hread)
    exact Reading.callsOnly_ofLine source
  · intro source e _ hcalls table other _ _
    have hevaluate := hcalls.evaluate_congr Stack.nesting table other
    refine ⟨hevaluate, ?_⟩
    simp only [FunctionTable.run, hcalls.definition?_eq_none, hevaluate]
    cases table.evaluate Stack.nesting e <;> rfl

theorem session_names_quoted :
    let table := FunctionTable.empty.following ["'max'(x,y)=0", "f(x)='max'(x,g)"]
    let body : Expr := .operator .maximum [.call "x" [], .call "g" []]
    table.find? "max" = none ∧ table.find? "f" = some ⟨["x"], body⟩ ∧
      body.CallsOnly IsUserName := by
  intro table body
  obtain ⟨hreachable, hnames, -⟩ := session_names
  have htable : table.Reachable := hreachable _
  have hbody : table.find? "f" = some ⟨["x"], body⟩ := by decide +kernel
  refine ⟨?_, hbody, (hnames table htable "f" _ hbody).2.2⟩
  cases hmax : table.find? "max" with
  | none => rfl
  | some f => exact absurd rfl ((hnames table htable "max" f hmax).1 .maximum (by decide))

end Reckon
