import Reckon.Proofs.Function.Evaluation
set_option autoImplicit false

namespace Reckon

section Evaluation

variable {scope : Scope} {depth : Nat} {e : Expr} {err : Error}

theorem Expr.WellFormed.eval (he : e.WellFormed)
    (hcall : ∀ name f, scope.table.find? name = some f → ∀ values depth err,
      scope.call f values depth = .error err → ¬ err.IsMalformed)
    (h : e.eval scope depth = .error err) : ¬ err.IsMalformed := by
  induction he generalizing depth err with
  | @constant value =>
    simp only [Expr.eval] at h
    split at h
    · cases h
    · cases h
      simp [Error.IsMalformed]
  | @operator op operands _ hlen _ ih =>
    -- The meaning asks for operands below the arity only, so each of them is there.
    have hat : ∀ i, i < op.arity → ∀ err, Expr.evalAt scope (depth + 1) op i operands = .error err →
        ¬ err.IsMalformed := by
      intro i hi err herr
      rw [← hlen] at hi
      rw [Expr.evalAt_of_lt hi] at herr
      exact ih operands[i] (List.getElem_mem hi) herr
    have hwithin := op.meaning_within
    simp only [Expr.eval] at h
    split at h
    · cases hmeaning : op.meaning with
      | constant value => simp [hmeaning] at h
      | structural =>
        simp only [hmeaning, Except.error.injEq] at h
        subst h
        simp [Error.IsMalformed]
      | unary apply =>
        rw [hmeaning] at hwithin
        have harity : op.arity = 1 := hwithin
        simp only [hmeaning] at h
        split at h
        · cases h
        · rename_i other hfirst
          cases h
          exact hat 0 (by omega) _ hfirst
      | binary apply =>
        rw [hmeaning] at hwithin
        have harity : op.arity = 2 := hwithin
        simp only [hmeaning] at h
        split at h
        · split at h
          · cases h
          · rename_i other hsecond
            cases h
            exact hat 1 (by omega) _ hsecond
        · rename_i other hfirst
          cases h
          exact hat 0 (by omega) _ hfirst
      | choice choose =>
        rw [hmeaning] at hwithin
        obtain ⟨hpos, hchoose⟩ := hwithin
        simp only [hmeaning] at h
        split at h
        · rename_i x hfirst
          split at h
          · cases h
          · exact hat (choose x) (hchoose x) _ h
        · rename_i other hfirst
          cases h
          exact hat 0 hpos _ hfirst
    · cases h
      simp [Error.IsMalformed]
  | @call name operands _ ih =>
    simp only [Expr.eval] at h
    split at h
    · split at h
      · split at h
        · cases h
        · cases h
          simp [Error.IsMalformed]
      · split at h
        · cases h
          simp [Error.IsMalformed]
        · rename_i f hfind
          split at h
          · split at h
            · exact hcall name f hfind _ _ _ h
            · rename_i other harguments
              cases h
              obtain ⟨e, he, heval⟩ := Expr.evalAll_error harguments
              exact ih e he heval
          · cases h
            simp [Error.IsMalformed]
    · cases h
      simp [Error.IsMalformed]

end Evaluation

def FunctionTable.WellFormed (table : FunctionTable) : Prop :=
  ∀ name f, table.find? name = some f → f.body.WellFormed

namespace FunctionTable.WellFormed

variable {table : FunctionTable} {limit : Limit} {e : Expr} {err : Error}

theorem empty : FunctionTable.empty.WellFormed := by
  intro name f h
  cases h

theorem define {name : String} {f : Formula} (ht : table.WellFormed) (hf : f.body.WellFormed) :
    (table.define name f).WellFormed := by
  intro other g hg
  rw [FunctionTable.find?_define] at hg
  split at hg
  · cases hg
    exact hf
  · exact ht other g hg

theorem call (ht : table.WellFormed) (calls : Nat) {name : String} {f : Formula}
    (hf : table.find? name = some f) {values : List Number} {depth : Nat}
    (h : table.call limit calls f values depth = .error err) : ¬ err.IsMalformed := by
  induction calls generalizing name f values depth err with
  | zero =>
    cases h
    simp [Error.IsMalformed]
  | succ calls ih =>
    have hbody := ht name f hf
    exact hbody.eval (fun name f hf _ _ _ herr => ih hf herr) h

theorem evaluate (ht : table.WellFormed) (he : e.WellFormed)
    (h : table.evaluate limit e = .error err) : ¬ err.IsMalformed :=
  he.eval (fun _ _ hf _ _ _ herr => ht.call callCeiling hf herr) h

end FunctionTable.WellFormed

end Reckon
