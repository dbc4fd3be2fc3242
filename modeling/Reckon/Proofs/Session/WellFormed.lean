import Reckon.Session
import Reckon.Proofs.Function.WellFormed
import Reckon.Proofs.Statement.WellFormed
/-!
No line brings about an expression with a missing operand, and no run looks for one: the
functions that are defined along the way have well-formed bodies, since only statements that
have been read are run (`FunctionTable.wellFormed_after`).
-/
set_option autoImplicit false

namespace Reckon

theorem Expr.WellFormed.definition {e : Expr} {d : Definition} (he : e.WellFormed)
    (h : e.definition? = some d) : d.formula.body.WellFormed := by
  unfold Expr.definition? at h
  split at h
  · rename_i name operands body
    obtain ⟨parameters, -, rfl⟩ := Option.map_eq_some_iff.1 h
    exact he.operands_of_operator body (by simp)
  · cases h

namespace FunctionTable.WellFormed

variable {table table' : FunctionTable} {e : Expr} {effect : Effect} {err : Error}

theorem run [Stack] (ht : table.WellFormed) (he : e.WellFormed)
    (h : table.run e = .ok (effect, table')) : table'.WellFormed := by
  unfold FunctionTable.run at h
  split at h
  · rename_i d hd
    cases h
    exact ht.define (he.definition hd)
  · split at h
    · cases h
      exact ht
    · cases h

theorem run_error [Stack] (ht : table.WellFormed) (he : e.WellFormed)
    (h : table.run e = .error err) : ¬ err.IsMalformed := by
  unfold FunctionTable.run at h
  split at h
  · cases h
  · split at h
    · cases h
    · rename_i other hevaluate
      cases h
      exact ht.evaluate he hevaluate

theorem statements [Stack] {failure : Option Error} {es : List Expr} (ht : table.WellFormed)
    (hes : ∀ e ∈ es, e.WellFormed) (hfailure : ∀ err ∈ failure, ¬ err.IsMalformed) :
    (Run.statements failure table es).table.WellFormed ∧
      ∀ i ∈ (Run.statements failure table es).interruption, ¬ i.error.IsMalformed := by
  induction es generalizing table with
  | nil =>
    refine ⟨ht, ?_⟩
    intro i hi
    obtain ⟨err, herr, rfl⟩ := Option.map_eq_some_iff.1 hi
    exact hfailure err herr
  | cons e es ih =>
    obtain ⟨he, hrest⟩ := List.forall_mem_cons.1 hes
    cases hrun : table.run e with
    | error err =>
      simp only [Run.statements, hrun]
      exact ⟨ht, by simpa using ht.run_error he hrun⟩
    | ok done =>
      obtain ⟨effect, table'⟩ := done
      simp only [Run.statements, hrun]
      exact ih (ht.run he hrun) hrest

theorem line [Stack] (ht : table.WellFormed) (source : String) :
    (Run.line table source).table.WellFormed ∧
      ∀ i ∈ (Run.line table source).interruption, ¬ i.error.IsMalformed :=
  ht.statements (Reading.wellFormed_ofLine source) (Reading.failure_ofLine source)

theorem outcome [Stack] (ht : table.WellFormed) (source : String)
    (h : (Run.line table source).outcome = .error err) : ¬ err.IsMalformed := by
  unfold Run.outcome at h
  split at h
  · rename_i i hi
    cases h
    exact (ht.line source).2 i hi
  · cases h

end FunctionTable.WellFormed

def FunctionTable.after [Stack] (sources : List String) : FunctionTable :=
  sources.foldl (fun table source => (Run.line table source).table) .empty

end Reckon
