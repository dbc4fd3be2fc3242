import Reckon.Proofs.Function.Operands
set_option autoImplicit false

namespace Reckon

/-- Every operator has a value of its own and as many operands as it takes, and every name is that
of a parameter, which is a number, or of a function with as many parameters as there are
arguments. -/
inductive Expr.Closed (table : FunctionTable) (parameters : List String) : Expr → Prop where
  | constant {value : Number} : Closed table parameters (.constant value)
  | operator {op : Operator} {operands : List Expr} :
      operands.length = op.arity → op.meaning ≠ .structural →
      (∀ e ∈ operands, e.Closed table parameters) →
      Closed table parameters (.operator op operands)
  | parameter {name : String} : name ∈ parameters → Closed table parameters (.call name [])
  | call {name : String} {operands : List Expr} {f : Formula} :
      name ∉ parameters → table.find? name = some f →
      operands.length = f.parameters.length → (∀ e ∈ operands, e.Closed table parameters) →
      Closed table parameters (.call name operands)

def FunctionTable.Closed (table : FunctionTable) : Prop :=
  ∀ name f, table.find? name = some f → f.body.Closed table f.parameters

def Binds (bindings : Bindings) (parameters : List String) : Prop :=
  ∀ name, (∃ value, Text.lookup? name bindings = some value) ↔ name ∈ parameters

namespace Binds

variable {bindings : Bindings} {parameters : List String} {values : List Number}

theorem nil : Binds [] [] := by simp [Binds, Text.lookup?]

theorem zip (h : values.length = parameters.length) :
    Binds (parameters.zip values) parameters := by
  intro name
  induction parameters generalizing values with
  | nil => simp [Text.lookup?]
  | cons p ps ih =>
    cases values with
    | nil => cases h
    | cons v vs =>
      have hrest : (∃ value, Text.lookup? name (ps.zip vs) = some value) ↔ name ∈ ps :=
        ih (by simpa using h)
      by_cases hp : p = name
      · simp [Text.lookup?, hp]
      · simp [Text.lookup?, hp, Ne.symm hp, hrest]

end Binds

namespace Expr.Closed

variable {table : FunctionTable} {limit : Limit} {calls depth : Nat} {bindings : Bindings}
  {parameters : List String} {e : Expr} {err : Error}

theorem eval (hbinds : Binds bindings parameters) (he : e.Closed table parameters)
    (hcall : ∀ name f values depth err, table.find? name = some f →
      values.length = f.parameters.length →
      table.call limit calls f values depth = .error err → err = .excessiveRecursion)
    (h : e.eval (table.frame limit calls bindings) depth = .error err) :
    err = .excessiveRecursion := by
  induction he generalizing depth err with
  | constant =>
    rcases Expr.allows_of_eval_error h with rfl | hallows
    · rfl
    · simp [Expr.eval, FunctionTable.frame, hallows] at h
  | @operator op operands hlength hmeaning _ ih =>
    rcases Expr.allows_of_eval_error h with rfl | hallows
    · rfl
    · rw [Expr.eval_frame_operator hallows] at h
      -- The operand that fails is there, since no more are asked for than the operator takes.
      rcases Operator.outcome_error h with hstructural | ⟨i, hasks, hi⟩
      · exact absurd hstructural hmeaning
      · have hlt : i < operands.length := hlength ▸ hasks.lt_arity
        rw [Expr.evalAt_of_lt hlt] at hi
        exact ih operands[i] (List.getElem_mem hlt) hi
  | @parameter name hmem =>
    obtain ⟨value, hvalue⟩ := (hbinds name).2 hmem
    rcases Expr.allows_of_eval_error h with rfl | hallows
    · rfl
    · simp [Expr.eval, FunctionTable.frame, hallows, hvalue] at h
  | @call name operands f hnot hfind hlength _ ih =>
    have hunbound : Text.lookup? name bindings = none := by
      cases hvalue : Text.lookup? name bindings with
      | none => rfl
      | some value => exact absurd ((hbinds name).1 ⟨value, hvalue⟩) hnot
    rcases Expr.allows_of_eval_error h with rfl | hallows
    · rfl
    · rw [Expr.eval_frame_call hallows ⟨hunbound, hfind, hlength⟩] at h
      split at h
      · rename_i values hvalues
        have hvalues := (Expr.length_of_evalAll hvalues).trans hlength
        exact hcall name f values _ err hfind hvalues h
      · rename_i other hother
        cases h
        obtain ⟨e, he, heval⟩ := Expr.evalAll_error hother
        exact ih e he heval

end Expr.Closed

/-- The body of each function called is closed for its own parameters, which are bound. -/
theorem FunctionTable.Closed.call {table : FunctionTable} {limit : Limit} (ht : table.Closed)
    (calls : Nat) {name : String} {f : Formula} {values : List Number} {depth : Nat} {err : Error}
    (hf : table.find? name = some f) (hlength : values.length = f.parameters.length)
    (h : table.call limit calls f values depth = .error err) : err = .excessiveRecursion := by
  induction calls generalizing name f values depth err with
  | zero =>
    cases h
    rfl
  | succ calls ih =>
    exact (ht name f hf).eval (.zip hlength) (fun _ _ _ _ _ hf hlength herr => ih hf hlength herr) h

/-- A closed program does not go wrong. With the bodies of all functions closed for their
parameters, a closed expression has a value or exceeds the depth to which calls or expressions
may be nested; no name is unknown, no function is called with a wrong number of arguments, no
parameter is applied, and every operator has a value. -/
theorem evaluate_closed (table : FunctionTable) (limit : Limit) (e : Expr) (ht : table.Closed)
    (he : e.Closed table []) :
    (∃ x, table.evaluate limit e = .ok x) ∨
      table.evaluate limit e = .error .excessiveRecursion := by
  cases h : table.evaluate limit e with
  | ok x => exact .inl ⟨x, rfl⟩
  | error err =>
    have hcall : ∀ name f values depth err, table.find? name = some f →
        values.length = f.parameters.length →
        table.call limit callCeiling f values depth = .error err → err = .excessiveRecursion :=
      fun _ _ _ _ _ hf hlength herr => ht.call callCeiling hf hlength herr
    have herr := he.eval .nil hcall h
    exact .inr (congrArg Except.error herr)

theorem evaluate_closed_mutual :
    let body (parameter other : String) (last : Int) : Expr :=
      .operator .conditional [.call parameter [],
        .call other [.operator .subtract [.call parameter [], .constant (.ofInt 1)]],
        .constant (.ofInt last)]
    let table := (FunctionTable.empty.define "even" ⟨["n"], body "n" "odd" 1⟩).define "odd"
      ⟨["odd"], body "odd" "even" 0⟩
    let e : Expr := .call "even" [.constant (.ofInt 300)]
    table.Closed ∧ e.Closed table [] ∧
      ((∃ x, table.evaluate none e = .ok x) ∨
        table.evaluate none e = .error .excessiveRecursion) := by
  intro body table e
  have heven : table.find? "even" = some ⟨["n"], body "n" "odd" 1⟩ := by
    simp [table, FunctionTable.find?_define]
  have hodd : table.find? "odd" = some ⟨["odd"], body "odd" "even" 0⟩ := by
    simp [table, FunctionTable.find?_define]
  have hbody : ∀ parameter other last f, other ≠ parameter → table.find? other = some f →
      1 = f.parameters.length → (body parameter other last).Closed table [parameter] := by
    intro parameter other last f hne hfind hlength
    have hname : (Expr.call parameter []).Closed table [parameter] := .parameter (by simp)
    have hless : (Expr.operator .subtract [.call parameter [], .constant (.ofInt 1)]).Closed table
        [parameter] := .operator rfl nofun (by simpa using ⟨hname, .constant⟩)
    have hcall : (Expr.call other [.operator .subtract
        [.call parameter [], .constant (.ofInt 1)]]).Closed table [parameter] :=
      .call (by simpa using hne) hfind hlength (by simpa using hless)
    exact .operator rfl nofun (by simpa using ⟨hname, hcall, .constant⟩)
  have ht : table.Closed := by
    intro name f hf
    rw [FunctionTable.find?_define, FunctionTable.find?_define] at hf
    split at hf
    · cases hf
      exact hbody "odd" "even" 0 _ (by decide) heven rfl
    · split at hf
      · cases hf
        exact hbody "n" "odd" 1 _ (by decide) hodd rfl
      · cases hf
  have he : e.Closed table [] := .call (by simp) heven rfl (by simpa using .constant)
  exact ⟨ht, he, evaluate_closed table none e ht he⟩

end Reckon
