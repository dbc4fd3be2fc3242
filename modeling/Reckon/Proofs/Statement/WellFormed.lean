import Reckon.Statement.Cache
import Reckon.Proofs.Expr.WellFormed
import Reckon.Proofs.Statement.Moves
import Reckon.Proofs.Statement.Stack
set_option autoImplicit false

namespace Reckon

def Waiting.WellFormed (w : Waiting) : Prop := ∀ e ∈ w.left, e.WellFormed

theorem Waiting.WellFormed.complete {w : Waiting} {e e' : Expr} (hw : w.WellFormed)
    (he : e.WellFormed) (h : w.complete e = .ok e') : e'.WellFormed := by
  unfold Waiting.complete at h
  split at h
  · rename_i harity _
    cases h
    refine .operator ?_ harity.symm (by simpa using he)
    intro hop
    rw [hop] at harity
    cases harity
  · cases h
  · rename_i left harity hleft
    cases h
    exact .ofInfix harity (hw left hleft) he
  · cases h
  · cases h

structure Settled.WellFormed (st : Settled) : Prop where
  operand : st.operand.WellFormed
  waiting : ∀ w ∈ st.waiting, w.WellFormed

theorem Settled.WellFormed.settle {op : Operator} {ws : List Waiting} {e : Expr} {st : Settled}
    (he : e.WellFormed) (hws : ∀ w ∈ ws, w.WellFormed) (h : settle op e ws = .ok st) :
    st.WellFormed := by
  induction ws generalizing e with
  | nil =>
    cases h
    exact ⟨he, by simp⟩
  | cons w ws ih =>
    obtain ⟨hw, hrest⟩ := List.forall_mem_cons.1 hws
    simp only [Reckon.settle] at h
    split at h
    · split at h
      · split at h
        · cases h
          exact ⟨he, hrest⟩
        · cases h
      · split at h
        · rename_i e' hcomplete
          exact ih (hw.complete he hcomplete) hrest h
        · cases h
    · cases h
      exact ⟨he, hws⟩

structure Level.WellFormed (l : Level) : Prop where
  operand : ∀ e ∈ l.operand, e.WellFormed
  waiting : ∀ w ∈ l.waiting, w.WellFormed

namespace Level.WellFormed

variable {l l' : Level} {op : Operator} {e : Expr}

theorem empty : Level.empty.WellFormed := ⟨by simp [Level.empty], by simp [Level.empty]⟩

theorem push (hl : l.WellFormed) (h : l.push op = .ok l') : l'.WellFormed := by
  obtain ⟨operand, ws⟩ := l
  obtain ⟨hoperand, hws⟩ := hl
  have hnone : ∀ sign, Waiting.WellFormed ⟨sign, none⟩ := by simp [Waiting.WellFormed]
  have hsome : ∀ sign e, e.WellFormed → Waiting.WellFormed ⟨sign, some e⟩ := by
    simp [Waiting.WellFormed]
  cases operand with
  | none =>
    obtain ⟨rfl, -, -⟩ := Level.push_none_eq_ok h
    exact ⟨by simp, List.forall_mem_cons.2 ⟨hnone _, hws⟩⟩
  | some operand =>
    have hoperand : operand.WellFormed := hoperand operand rfl
    rcases Level.push_some_eq_ok h with ⟨rfl, rfl⟩ | ⟨-, st, hst, hcase⟩
    · exact ⟨by simp, List.forall_mem_cons.2 ⟨hsome _ _ hoperand, hws⟩⟩
    · have hsettled := Settled.WellFormed.settle hoperand hws hst
      rcases hcase with ⟨-, rfl⟩ | ⟨-, -, rfl⟩
      · exact ⟨by simpa using hsettled.operand, hsettled.waiting⟩
      · exact ⟨by simp, List.forall_mem_cons.2 ⟨hsome _ _ hsettled.operand, hsettled.waiting⟩⟩

theorem finish (hl : l.WellFormed) (h : l.finish = .ok e) : e.WellFormed := by
  obtain ⟨operand, hoperand, hsettle⟩ := Level.settle_of_finish h
  exact (Settled.WellFormed.settle (hl.operand operand hoperand) hl.waiting hsettle).operand

end Level.WellFormed

structure OpenCall.WellFormed (call : OpenCall) : Prop where
  waiting : ∀ w ∈ call.waiting, w.WellFormed
  arguments : ∀ e ∈ call.arguments, e.WellFormed

structure ReaderState.WellFormed (s : ReaderState) : Prop where
  level : s.level.WellFormed
  calls : ∀ call ∈ s.calls, call.WellFormed

namespace ReaderState.WellFormed

variable {mode : ReaderMode} {limit : Limit} {failure : Option LexicalError}
  {s s' : ReaderState} {t : Token} {l : Level} {calls : List OpenCall} {e : Expr}

theorem named {ws : List Waiting} {name : String} (hws : ∀ w ∈ ws, w.WellFormed)
    {arguments : List Expr} (harguments : ∀ e ∈ arguments, e.WellFormed)
    (h : Named name arguments e) : Level.WellFormed ⟨some e, ws⟩ := by
  have he := Expr.WellFormed.ofName (named_iff.1 h) harguments
  exact ⟨by simpa using he, hws⟩

theorem resolves (hs : s.WellFormed) (h : Resolves limit s s') : s'.WellFormed := by
  cases h with
  | none => exact hs
  | named hnamed => exact ⟨named hs.level.waiting (by simp) hnamed, hs.calls⟩
  | opened => exact ⟨.empty, List.forall_mem_cons.2 ⟨⟨hs.level.waiting, by simp⟩, hs.calls⟩⟩

theorem places (hs : WellFormed ⟨l, calls, .none⟩) (h : Places mode l calls t (.onward s')) :
    s'.WellFormed := by
  cases h with
  | separator _ hfinish =>
    obtain ⟨hcall, hcalls⟩ := List.forall_mem_cons.1 hs.calls
    have harguments := List.forall_mem_cons.2 ⟨hs.level.finish hfinish, hcall.arguments⟩
    exact ⟨.empty, List.forall_mem_cons.2 ⟨⟨hcall.waiting, harguments⟩, hcalls⟩⟩
  | closeCall _ hfinish hvalue =>
    obtain ⟨hcall, hcalls⟩ := List.forall_mem_cons.1 hs.calls
    have harguments := List.forall_mem_cons.2 ⟨hs.level.finish hfinish, hcall.arguments⟩
    refine ⟨named hcall.waiting (fun e he => harguments e (List.mem_reverse.1 he)) hvalue, hcalls⟩
  | push _ hpush => exact ⟨hs.level.push hpush, hs.calls⟩
  | number => exact ⟨⟨by simpa using Expr.WellFormed.constant, hs.level.waiting⟩, hs.calls⟩
  | name => exact ⟨hs.level, hs.calls⟩

theorem moves (hs : s.WellFormed) (h : Moves mode s t (.onward s')) : s'.WellFormed := by
  cases h with
  | openList => exact ⟨hs.level, hs.calls⟩
  | bareCall _ hnamed => exact ⟨named hs.level.waiting (by simp) hnamed, hs.calls⟩
  | place hresolves hplaces => exact (hs.resolves hresolves).places hplaces

theorem stop {taken : Bool} (hs : s.WellFormed) (h : Moves mode s t (.stop (.ok e) taken)) :
    e.WellFormed := by
  cases h with
  | place hresolves hplaces =>
    have hlevel := (hs.resolves hresolves).level
    cases hplaces with
    | endSeparator _ hfinish => exact hlevel.finish hfinish
    | endParen _ _ hfinish => exact hlevel.finish hfinish

theorem read {rest : TokenQueue} {ts : List Token} (hs : s.WellFormed)
    (h : s.read mode failure ts = (.ok e, rest)) : e.WellFormed := by
  induction ts generalizing s with
  | nil =>
    cases failure with
    | some err => cases h
    | none =>
      have hend : s.atEnd = .ok e := congrArg Prod.fst h
      obtain ⟨l, hresolves, hfinish⟩ := resolves_of_atEnd mode.limit hend
      exact (hs.resolves hresolves).level.finish hfinish
  | cons t ts ih =>
    rcases moves_of_step mode s t with hmoves | ⟨err, taken, hstep⟩
    · cases hstep : step mode s t with
      | onward s' =>
        rw [read_of_onward hstep] at h
        rw [hstep] at hmoves
        exact ih (hs.moves hmoves) h
      | stop result taken =>
        simp only [ReaderState.read, hstep, Prod.mk.injEq] at h
        rw [hstep, h.1] at hmoves
        exact hs.stop hmoves
    · simp [ReaderState.read, hstep] at h

end ReaderState.WellFormed

theorem TokenQueue.wellFormed_of_statement {mode : ReaderMode} {q rest : TokenQueue} {e : Expr}
    (h : q.statement mode = (.ok e, rest)) : e.WellFormed := by
  have hstart : ReaderState.start.WellFormed := ⟨.empty, by simp [ReaderState.start]⟩
  exact hstart.read h

/-- What can be wrong with a line when it is read: its own faults, and argument lists that are
nested too deep. -/
def Error.OfReading (limit : Limit) : Error → Prop
  | .lexical _ | .misplaced _ _ | .wrongArity _ _ _ => True
  | .excessiveRecursion => ∃ depth, limit.allows depth = false
  | _ => False

theorem Error.OfReading.not_isMalformed {limit : Limit} {err : Error} (h : err.OfReading limit) :
    ¬ err.IsMalformed := by
  rintro ⟨name, rfl⟩
  exact h

namespace ReaderState

variable {mode : ReaderMode} {failure : Option LexicalError} {s : ReaderState} {t : Token}
  {limit : Limit} {err : Error} {taken : Bool}

theorem closeCall_error {call : OpenCall} {arguments : List Expr} {calls : List OpenCall}
    (h : closeCall call arguments calls = .stop (.error err) taken) : err.OfReading limit := by
  unfold closeCall at h
  split at h
  · cases h
  · rename_i other hname
    cases h
    obtain ⟨_, _, rfl⟩ := Expr.ofName_error hname
    trivial

theorem comma_error (h : s.comma = .stop (.error err) taken) : err.OfReading limit := by
  unfold comma at h
  split at h
  · cases h
    trivial
  · split at h <;> cases h

theorem closeList_error (h : s.closeList = .stop (.error err) taken) : err.OfReading limit := by
  unfold closeList at h
  split at h
  · cases h
    trivial
  · split at h
    · cases h
    · exact closeCall_error h

theorem place_error (h : place mode s t = .stop (.error err) taken) : err.OfReading limit := by
  unfold place at h
  split at h
  · exact comma_error h
  · split at h
    · exact closeList_error h
    · split at h
      · split at h
        · cases h
        · cases h
          trivial
      · split at h
        · cases h
          trivial
        · cases h
      · split at h
        · cases h
          trivial
        · cases h

theorem step_error (h : step mode s t = .stop (.error err) taken) : err.OfReading mode.limit := by
  unfold step at h
  split at h
  · exact place_error h
  · split at h
    · cases h
    · split at h
      · exact place_error h
      · rename_i other hname
        cases h
        obtain ⟨_, _, rfl⟩ := Expr.ofName_error hname
        trivial
  · split at h
    · exact closeCall_error h
    · split at h
      · exact place_error h
      · rename_i hdeep
        cases h
        exact ⟨_, Bool.eq_false_iff.2 hdeep⟩

theorem finished_error {calls : List OpenCall} {l : Level} (h : finished calls l = .error err) :
    err.OfReading limit := by
  unfold finished at h
  split at h
  · cases h
    trivial
  · split at h
    · cases h
    · cases h
      trivial

theorem atEnd_error (h : s.atEnd = .error err) : err.OfReading limit := by
  obtain ⟨l, calls, lookahead⟩ := s
  cases lookahead with
  | none => exact finished_error h
  | named name =>
    cases hof : Expr.ofName name [] with
    | error other =>
      rw [atEnd_named_error hof] at h
      cases h
      obtain ⟨_, _, rfl⟩ := Expr.ofName_error hof
      trivial
    | ok value =>
      rw [atEnd_named hof] at h
      exact finished_error h
  | opened name =>
    cases h
    trivial

theorem read_error {rest : TokenQueue} {ts : List Token}
    (h : s.read mode failure ts = (.error err, rest)) : err.OfReading mode.limit := by
  induction ts generalizing s with
  | nil =>
    cases failure with
    | some lexical =>
      cases h
      trivial
    | none => exact atEnd_error (congrArg Prod.fst h)
  | cons t ts ih =>
    cases hstep : step mode s t with
    | onward s' =>
      rw [read_of_onward hstep] at h
      exact ih h
    | stop result taken =>
      simp only [read, hstep, Prod.mk.injEq] at h
      rw [h.1] at hstep
      exact step_error hstep

end ReaderState

namespace Reading

theorem all_eq_ok_iff {r : Reading} {es : List Expr} :
    r.all = .ok es ↔ r.failure = none ∧ r.statements = es := by
  cases h : r.failure <;> simp [all, h]

theorem forall_upTo {limit : Limit} {P : Expr → Prop} {Q : TokenQueue → Prop}
    (h : ∀ q rest e, Q q → q.statement ⟨false, limit⟩ = (.ok e, rest) → P e ∧ Q rest)
    (count : Nat) {q : TokenQueue} (hq : Q q) : ∀ e ∈ (upTo limit count q).statements, P e := by
  induction count generalizing q with
  | zero => simp [upTo]
  | succ count ih =>
    unfold upTo
    split
    · simp
    · split
      · rename_i e rest hstatement
        obtain ⟨he, hrest⟩ := h q rest e hq hstatement
        exact List.forall_mem_cons.2 ⟨he, ih hrest⟩
      · simp

theorem wellFormed_upTo (limit : Limit) (count : Nat) (q : TokenQueue) :
    ∀ e ∈ (upTo limit count q).statements, e.WellFormed :=
  forall_upTo (Q := fun _ => True)
    (fun _ _ _ _ h => ⟨TokenQueue.wellFormed_of_statement h, trivial⟩) count trivial

theorem failure_upTo (limit : Limit) (count : Nat) (q : TokenQueue) :
    ∀ err ∈ (upTo limit count q).failure, err.OfReading limit := by
  induction count generalizing q with
  | zero => simp [upTo]
  | succ count ih =>
    intro err h
    unfold upTo at h
    split at h
    · obtain ⟨lexical, -, rfl⟩ := Option.map_eq_some_iff.1 h
      trivial
    · split at h
      · exact ih _ err h
      · rename_i other rest hstatement
        cases h
        exact ReaderState.read_error hstatement

theorem failure_ofLine [Stack] (source : String) :
    ∀ err ∈ (ofLine source).failure, ¬ err.IsMalformed :=
  fun err h => (failure_upTo _ _ _ err h).not_isMalformed

theorem wellFormed_ofLine [Stack] (source : String) :
    ∀ e ∈ (ofLine source).statements, e.WellFormed :=
  wellFormed_upTo _ _ _

theorem wellFormed_all {limit : Limit} {q : TokenQueue} {es : List Expr}
    (h : (ofQueue limit q).all = .ok es) : ∀ e ∈ es, e.WellFormed := by
  rw [← (all_eq_ok_iff.1 h).2]
  exact wellFormed_upTo _ _ _

end Reading

theorem Unanswered.ofError_eq_faulty_iff {err e : Error} :
    ofError err = .faulty e ↔ err = e ∧ err ≠ .excessiveRecursion := by
  unfold ofError
  split <;> simp_all

theorem Unanswered.ofError_eq_outOfStack_iff {err : Error} :
    ofError err = .outOfStack ↔ err = .excessiveRecursion := by
  unfold ofError
  split <;> simp_all

namespace ReadingCache

def WellFormed (c : ReadingCache) : Prop :=
  ∀ entry ∈ c.entries, ∀ e ∈ entry.2, e.WellFormed

theorem mem_of_lookup {source : String} {statements : List Expr}
    {entries : List (String × List Expr)} (h : Text.lookup? source entries = some statements) :
    (source, statements) ∈ entries := by
  induction entries with
  | nil => cases h
  | cons entry entries ih =>
    unfold Text.lookup? at h
    split at h
    · rename_i hsource
      cases h
      rw [← hsource]
      exact List.mem_cons_self ..
    · exact List.mem_cons_of_mem _ (ih h)

/-- What holds of each line that has been read to its end holds of what is remembered and of what
is answered. -/
theorem forall_read [Stack] {P : String → List Expr → Prop}
    (h : ∀ source es, (Reading.bare source).all = .ok es → P source es)
    {c : ReadingCache} (hc : ∀ entry ∈ c.entries, P entry.1 entry.2) (source : String) :
    (∀ entry ∈ (c.read source).2.entries, P entry.1 entry.2) ∧
      ∀ statements, (c.read source).1 = .ok statements → P source statements := by
  unfold ReadingCache.read
  split
  · rename_i statements hlookup
    have hentry := hc _ (mem_of_lookup hlookup)
    refine ⟨List.forall_mem_cons.2 ⟨hentry, fun entry h => hc entry (List.mem_filter.1 h).1⟩, ?_⟩
    intro found hfound
    cases hfound
    exact hentry
  · split
    · rename_i statements hall
      refine ⟨fun entry hentry => ?_, ?_⟩
      · rcases List.mem_cons.1 (List.mem_of_mem_take hentry) with rfl | hentry
        · exact h source statements hall
        · exact hc entry hentry
      · intro found hfound
        cases hfound
        exact h source statements hall
    · exact ⟨hc, nofun⟩

theorem WellFormed.read [Stack] {c : ReadingCache} (hc : c.WellFormed) (source : String) :
    (c.read source).2.WellFormed ∧
      ∀ statements, (c.read source).1 = .ok statements → ∀ e ∈ statements, e.WellFormed :=
  forall_read (P := fun _ es => ∀ e ∈ es, e.WellFormed) (fun _ _ h => Reading.wellFormed_all h) hc
    source

def after [Stack] (sources : List String) : ReadingCache :=
  sources.foldl (fun c source => (c.read source).2) empty

end ReadingCache

end Reckon
