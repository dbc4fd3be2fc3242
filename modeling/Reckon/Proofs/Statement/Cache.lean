import Reckon.Proofs.Statement.Phrase
import Reckon.Proofs.Statement.WellFormed
set_option autoImplicit false

namespace Reckon

namespace ReadingCache

variable {c : ReadingCache}

def Faithful [Stack] (c : ReadingCache) : Prop :=
  ∀ entry ∈ c.entries, (Reading.bare entry.1).all = .ok entry.2

theorem Faithful.read [Stack] (hc : c.Faithful) (source : String) : (c.read source).2.Faithful :=
  (forall_read (fun _ _ h => h) hc source).1

theorem Faithful.read_fst [Stack] (hc : c.Faithful) (source : String) :
    (c.read source).1 = (Reading.bare source).all.mapError .ofError := by
  unfold ReadingCache.read
  split
  · rename_i statements hlookup
    rw [hc _ (mem_of_lookup hlookup)]
    rfl
  · cases (Reading.bare source).all <;> rfl

theorem faithful_after [Stack] (sources : List String) : (after sources).Faithful := by
  refine List.foldlRecOn (motive := Faithful) sources _ (b := empty) ?_ ?_
  · simp [Faithful, empty]
  · intro c hc source _
    exact hc.read source

theorem read_after [Stack] (earlier : List String) (source : String) :
    ((after earlier).read source).1 = (Reading.bare source).all.mapError .ofError :=
  (faithful_after earlier).read_fst source

/-- Unless the stack is used up, a line is answered by what it is when it is run. -/
theorem read_after_cases [Stack] (earlier : List String) (source : String) :
    ((after earlier).read source).1 = .error .outOfStack ∨
      ((after earlier).read source).1 = (Reading.ofLine source).all.mapError .faulty := by
  rw [read_after]
  rcases Reading.all_sameOrCut Stack.bare_within (.ofLine source) with hsame | ⟨-, hcut⟩
  · have hbare : (Reading.bare source).all = (Reading.ofLine source).all := hsame
    rw [hbare]
    cases hall : (Reading.ofLine source).all with
    | ok es => exact .inr rfl
    | error err =>
      by_cases hrecursion : err = .excessiveRecursion
      · exact .inl (congrArg Except.error (Unanswered.ofError_eq_outOfStack_iff.2 hrecursion))
      · exact .inr (congrArg Except.error (Unanswered.ofError_eq_faulty_iff.2 ⟨rfl, hrecursion⟩))
  · have hbare : (Reading.bare source).all = .error .excessiveRecursion := hcut
    rw [hbare]
    exact .inl rfl

theorem all_of_read_after [Stack] {earlier : List String} {source : String} {es : List Expr}
    (h : ((after earlier).read source).1 = .ok es) : (Reading.ofLine source).all = .ok es := by
  rcases read_after_cases earlier source with hcase | hcase
  · cases h.symm.trans hcase
  · cases hall : (Reading.ofLine source).all with
    | ok es' =>
      rw [hall] at hcase
      cases h.symm.trans hcase
      rfl
    | error err =>
      rw [hall] at hcase
      cases h.symm.trans hcase

end ReadingCache

end Reckon
