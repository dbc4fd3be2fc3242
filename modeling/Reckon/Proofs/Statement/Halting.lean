import Mathlib.Data.List.Nodup
import Reckon.Proofs.Expr.WellFormed
import Reckon.Proofs.Statement.Moves
import Reckon.Proofs.Statement.Stack
import Reckon.Proofs.Token.Tiling
/-!
Where the reader stops, in a statement that can be read or cannot. The tokens before that place say
which parentheses are open there and what these have opened (`Nesting`). The state of the reader
agrees with them after every step (`Stands.step`), so each error is raised at a known place
(`ReaderState.Halts`, `statement_halts`).
-/
set_option autoImplicit false

namespace Reckon

/-- What an open parenthesis has opened: the argument list of the name right before it, or a
group. -/
inductive Opening where
  | list (name : Token)
  | group

/-- What is open behind some tokens, the innermost first, and the last token if it is a name. -/
structure Nesting where
  openings : List Opening
  name? : Option Token

namespace Nesting

def after (n : Nesting) (t : Token) : Nesting :=
  match t.kind with
  | .operator .openParen => ⟨(n.name?.map Opening.list).getD .group :: n.openings, none⟩
  | .operator .closeParen => ⟨n.openings.tail, none⟩
  | .text => ⟨n.openings, if t.text = "," then none else some t⟩
  | _ => ⟨n.openings, none⟩

def ofTokens (ts : List Token) : Nesting := ts.foldl after ⟨[], none⟩

def EndsArgument (nested : Bool) (n : Nesting) : Prop :=
  (∃ name outer, n.openings = .list name :: outer) ∨ nested = true ∧ n.openings = []

variable {n : Nesting} {t : Token} {op : Operator}

theorem ofTokens_concat (ts : List Token) (t : Token) :
    ofTokens (ts ++ [t]) = (ofTokens ts).after t := by
  simp [ofTokens, List.foldl_append]

theorem after_openParen (ht : t.kind = .operator .openParen) :
    n.after t = ⟨(n.name?.map Opening.list).getD .group :: n.openings, none⟩ := by
  simp [after, ht]

theorem after_closeParen (ht : t.kind = .operator .closeParen) :
    n.after t = ⟨n.openings.tail, none⟩ := by
  simp [after, ht]

theorem after_separator (ht : t.IsSeparator) : n.after t = ⟨n.openings, none⟩ := by
  simp [after, ht.1, ht.2]

theorem after_name (ht : t.IsName) : n.after t = ⟨n.openings, some t⟩ := by
  simp [after, ht.1, ht.2]

theorem after_number {value : Number} (ht : t.kind = .number value) :
    n.after t = ⟨n.openings, none⟩ := by
  simp [after, ht]

theorem after_operator (ht : t.kind = .operator op) (hopen : op ≠ .openParen)
    (hclose : op ≠ .closeParen) : n.after t = ⟨n.openings, none⟩ := by
  unfold after
  rw [ht]
  split
  · rename_i heq
    exact absurd (TokenKind.operator.inj heq) hopen
  · rename_i heq
    exact absurd (TokenKind.operator.inj heq) hclose
  · rename_i heq
    cases heq
  · rfl

theorem eq_concat_of_name? {ts : List Token} {name : Token}
    (h : (ofTokens ts).name? = some name) : (∃ before, ts = before ++ [name]) ∧ name.IsName := by
  rcases List.eq_nil_or_concat ts with rfl | ⟨before, t, rfl⟩
  · cases h
  · rw [List.concat_eq_append, ofTokens_concat] at h
    unfold after at h
    split at h
    · cases h
    · cases h
    · rename_i htext
      split at h
      · cases h
      · rename_i hcomma
        cases h
        exact ⟨⟨before, List.concat_eq_append⟩, htext, hcomma⟩
    · cases h

end Nesting

def groups (ws : List Waiting) : List Opening :=
  ws.filterMap fun w => if w.op = .openParen then some .group else none

theorem groups_cons_of_ne {w : Waiting} (h : w.op ≠ .openParen) (ws : List Waiting) :
    groups (w :: ws) = groups ws := by
  simp [groups, h]

theorem groups_cons_openParen (left : Option Expr) (ws : List Waiting) :
    groups (⟨.openParen, left⟩ :: ws) = .group :: groups ws := by
  simp [groups]

theorem groups_eq_nil {l : Level} (h : l.inGroup = false) : groups l.waiting = [] := by
  simpa [groups, Level.inGroup] using h

theorem groups_of_settle {op : Operator} {ws : List Waiting} {e : Expr} {st : Settled}
    (h : settle op e ws = .ok st) :
    groups ws = (if st.closed then [.group] else []) ++ groups st.waiting := by
  induction ws generalizing e with
  | nil =>
    cases h
    rfl
  | cons w ws ih =>
    simp only [settle] at h
    split at h
    · split at h
      · split at h
        · rename_i hopen
          cases h
          simp [groups, hopen.1]
        · cases h
      · rename_i harity
        have hne : w.op ≠ .openParen := fun heq => harity (by rw [heq]; rfl)
        split at h
        · rw [groups_cons_of_ne hne]
          exact ih h
        · cases h
    · cases h
      rfl

namespace Level

variable {l l' : Level} {op : Operator} {e : Expr}

theorem groups_of_finish (h : l.finish = .ok e) : groups l.waiting = [] := by
  obtain ⟨_, -, hsettle⟩ := settle_of_finish h
  exact groups_of_settle hsettle

/-- The groups that are open before and after an operator is taken in. -/
inductive Regroups : Operator → List Opening → List Opening → Prop where
  | opens {gs : List Opening} : Regroups .openParen gs (.group :: gs)
  | closes {gs : List Opening} : Regroups .closeParen (.group :: gs) gs
  | keeps {op : Operator} {gs : List Opening} :
      op ≠ .openParen → op ≠ .closeParen → Regroups op gs gs

theorem Regroups.after {t : Token} {gs gs' openings : List Opening} {name? : Option Token}
    (h : Regroups op gs gs') (ht : t.kind = .operator op) (hname : op = .openParen → name? = none) :
    Nesting.after ⟨gs ++ openings, name?⟩ t = ⟨gs' ++ openings, none⟩ := by
  cases h with
  | opens =>
    rw [Nesting.after_openParen ht, hname rfl]
    rfl
  | closes =>
    rw [Nesting.after_closeParen ht]
    rfl
  | keeps hopen hclose => exact Nesting.after_operator ht hopen hclose

theorem regroups_of_waiting {sign : Operator} {left : Option Expr} {ws : List Waiting}
    (hsign : sign = .openParen ↔ op = .openParen) (hclose : op ≠ .closeParen) :
    Regroups op (groups ws) (groups (⟨sign, left⟩ :: ws)) := by
  by_cases hopen : op = .openParen
  · rw [hsign.2 hopen, hopen, groups_cons_openParen]
    exact .opens
  · rw [groups_cons_of_ne (fun heq => hopen (hsign.1 heq))]
    exact .keeps hopen hclose

theorem regroups_of_push (hop : op ∈ Operator.table) (hcall : op.isCall = false)
    (h : l.push op = .ok l') : Regroups op (groups l.waiting) (groups l'.waiting) := by
  obtain ⟨operand, ws⟩ := l
  cases operand with
  | none =>
    obtain ⟨rfl, hclose, -⟩ := push_none_eq_ok h
    have hsign : (if op = .subtract then Operator.negate else op) = .openParen ↔
        op = .openParen := by
      by_cases hsub : op = .subtract <;> simp [hsub]
    exact regroups_of_waiting hsign hclose
  | some operand =>
    rcases push_some_eq_ok h with ⟨rfl, rfl⟩ | ⟨hopen, st, hst, hcase⟩
    · exact regroups_of_waiting Iff.rfl (by decide)
    · have hgroups := groups_of_settle hst
      rcases hcase with ⟨hclosed, rfl⟩ | ⟨hclosed, hclose, rfl⟩
      · have hclose := Operator.eq_closeParen op hop hcall hopen (settle_closed hst hclosed)
        rw [hgroups, hclosed, hclose]
        exact .closes
      · rw [hgroups, hclosed]
        exact regroups_of_waiting Iff.rfl hclose

end Level

inductive ListsOpen : List OpenCall → List Opening → Prop where
  | nil : ListsOpen [] []
  | cons {call : OpenCall} {calls : List OpenCall} {name : Token} {openings : List Opening} :
      name.text = call.name → ListsOpen calls openings →
      ListsOpen (call :: calls) (.list name :: (groups call.waiting ++ openings))

namespace ReaderState

/-- The state of the reader agrees with what is open. -/
inductive Stands : ReaderState → Nesting → Prop where
  | level {l : Level} {calls : List OpenCall} {openings : List Opening} :
      ListsOpen calls openings →
      Stands ⟨l, calls, .none⟩ ⟨groups l.waiting ++ openings, none⟩
  | named {l : Level} {calls : List OpenCall} {openings : List Opening} {t : Token} :
      ListsOpen calls openings →
      Stands ⟨l, calls, .named t.text⟩ ⟨groups l.waiting ++ openings, some t⟩
  | opened {l : Level} {calls : List OpenCall} {openings : List Opening} {t : Token} :
      ListsOpen calls openings →
      Stands ⟨l, calls, .opened t.text⟩ ⟨.list t :: (groups l.waiting ++ openings), none⟩

/-- How the reader can stop: the tokens that it has taken, those that it has left, and the
result. -/
inductive Halts (mode : ReaderMode) : List Token → List Token → Except Error Expr → Prop where
  | line {taken : List Token} {e : Expr} : Halts mode taken [] (.ok e)
  | separator {before left : List Token} {t : Token} {e : Expr} :
      t.IsSeparator → Halts mode (before ++ [t]) left (.ok e)
  | closeParen {taken left : List Token} {t : Token} {e : Expr} :
      mode.nested = true → t.kind = .operator .closeParen →
      (Nesting.ofTokens taken).openings = [] → Halts mode taken (t :: left) (.ok e)
  | misplaced {before left : List Token} {t : Token} {what : Misplacement} :
      Halts mode (before ++ [t]) left (.error (.misplaced what (some t.start)))
  | endOfLine {taken : List Token} {what : Misplacement} :
      Halts mode taken [] (.error (.misplaced what none))
  | beforeSeparator {before left : List Token} {t : Token} {what : Misplacement} :
      t.IsSeparator → Halts mode (before ++ [t]) left (.error (.misplaced what none))
  | beforeCloseParen {taken left : List Token} {t : Token} {what : Misplacement} :
      t.kind = .operator .closeParen → (Nesting.ofTokens taken).EndsArgument mode.nested →
      Halts mode taken (t :: left) (.error (.misplaced what none))
  | callArity {before left : List Token} {t name : Token} {outer : List Opening}
      {expected got : Nat} :
      t.kind = .operator .closeParen → (Nesting.ofTokens before).openings = .list name :: outer →
      Halts mode (before ++ [t]) left (.error (.wrongArity name.text expected got))
  | nameArity {before left : List Token} {name : Token} {expected got : Nat} :
      name.IsName → (∀ t ∈ left.head?, t.kind ≠ .operator .openParen) →
      Halts mode (before ++ [name]) left (.error (.wrongArity name.text expected got))
  /-- Only where the nesting of argument lists is limited. -/
  | tooDeep {taken left : List Token} {depth : Nat} :
      mode.limit.allows depth = false → Halts mode taken left (.error .excessiveRecursion)

variable {mode : ReaderMode} {s s' : ReaderState} {n : Nesting} {t : Token} {l : Level}
  {calls : List OpenCall} {openings : List Opening} {name? : Option Token}
  {result : Except Error Expr} {taken : Bool} {before left consumed : List Token}

theorem Stands.places (hcalls : ListsOpen calls openings) (ht : t.HasSign)
    (hname : t.kind = .operator .openParen → name? = none)
    (h : Places mode l calls t (.onward s')) :
    Stands s' (Nesting.after ⟨groups l.waiting ++ openings, name?⟩ t) := by
  cases h with
  | separator hsep hfinish =>
    cases hcalls with
    | cons htext hcalls =>
      rw [Nesting.after_separator hsep, Level.groups_of_finish hfinish]
      exact .level (.cons htext hcalls)
  | closeCall hclose hfinish _ =>
    cases hcalls with
    | cons _ hcalls =>
      rw [Nesting.after_closeParen hclose, Level.groups_of_finish hfinish]
      exact .level hcalls
  | push hop hpush =>
    obtain ⟨hmem, hcall⟩ := ht _ hop
    have hregroups := Level.regroups_of_push hmem hcall hpush
    rw [hregroups.after hop fun hopen => hname (hopen ▸ hop)]
    exact .level hcalls
  | number hnumber =>
    rw [Nesting.after_number hnumber]
    exact .level hcalls
  | name hname =>
    rw [Nesting.after_name hname]
    exact .named hcalls

theorem Stands.step (hs : Stands s n) (ht : t.HasSign) (h : step mode s t = .onward s') :
    Stands s' (n.after t) := by
  have hmoves : Moves mode s t (.onward s') := by
    rcases moves_of_step mode s t with hmoves | ⟨err, taken, hstop⟩
    · rwa [h] at hmoves
    · cases h.symm.trans hstop
  cases hs with
  | level hcalls =>
    cases hmoves with
    | place hresolves hplaces =>
      cases hresolves with
      | none => exact .places hcalls ht (fun _ => rfl) hplaces
  | named hcalls =>
    by_cases hopen : t.kind = .operator .openParen
    · rw [step_openParen hopen] at h
      cases h
      rw [Nesting.after_openParen hopen]
      exact .opened hcalls
    · cases hmoves with
      | openList hopen' => exact absurd hopen' hopen
      | place hresolves hplaces =>
        cases hresolves with
        | named _ =>
          exact .places (l := ⟨some _, _⟩) hcalls ht (fun heq => absurd heq hopen) hplaces
  | opened hcalls =>
    cases hmoves with
    | bareCall hclose _ =>
      rw [Nesting.after_closeParen hclose]
      exact .level hcalls
    | place hresolves hplaces =>
      cases hresolves with
      | opened _ => exact .places (.cons rfl hcalls) ht (fun _ => rfl) hplaces

theorem halts_of_closeCall {call : OpenCall} {arguments : List Expr} {name : Token}
    {outer : List Opening} (ht : t.kind = .operator .closeParen)
    (hopenings : (Nesting.ofTokens consumed).openings = .list name :: outer)
    (hname : name.text = call.name)
    (h : closeCall call arguments calls = .stop result taken) :
    taken = true ∧ Halts mode (consumed ++ [t]) left result := by
  unfold closeCall at h
  split at h
  · cases h
  · rename_i err herr
    cases h
    obtain ⟨expected, got, rfl⟩ := Expr.ofName_error herr
    rw [← hname]
    exact ⟨rfl, .callArity ht hopenings⟩

theorem halts_of_comma (ht : t.IsSeparator) (h : comma s = .stop result taken) :
    taken = true ∧ Halts mode (consumed ++ [t]) left result := by
  unfold comma at h
  split at h
  · cases h
    exact ⟨rfl, .beforeSeparator ht⟩
  · split at h
    · cases h
      exact ⟨rfl, .separator ht⟩
    · cases h

theorem halts_of_closeList (hcalls : ListsOpen calls openings)
    (hopenings : (Nesting.ofTokens consumed).openings = openings)
    (ht : t.kind = .operator .closeParen) (hnested : mode.nested = true ∨ calls ≠ [])
    (h : closeList ⟨l, calls, .none⟩ = .stop result taken) :
    Halts mode (if taken then consumed ++ [t] else consumed) (if taken then left else t :: left)
      result := by
  unfold closeList at h
  cases hcalls with
  | nil =>
    have hnested : mode.nested = true := hnested.resolve_right (by simp)
    split at h
    · cases h
      exact .beforeCloseParen ht (.inr ⟨hnested, hopenings⟩)
    · cases h
      exact .closeParen hnested ht hopenings
  | cons hname _ =>
    split at h
    · cases h
      exact .beforeCloseParen ht (.inl ⟨_, _, hopenings⟩)
    · obtain ⟨rfl, hhalts⟩ := halts_of_closeCall ht hopenings hname h
      exact hhalts

theorem halts_of_place (hcalls : ListsOpen calls openings)
    (hopenings : (Nesting.ofTokens consumed).openings = groups l.waiting ++ openings)
    (h : place mode ⟨l, calls, .none⟩ t = .stop result taken) :
    Halts mode (if taken then consumed ++ [t] else consumed) (if taken then left else t :: left)
      result := by
  unfold place at h
  split at h
  · rename_i hcomma
    have hhalts : taken = true ∧ Halts mode (consumed ++ [t]) left result :=
      halts_of_comma (Token.isComma_iff.1 hcomma) h
    rw [if_pos hhalts.1, if_pos hhalts.1]
    exact hhalts.2
  · split at h
    · rename_i hlist
      simp only [Bool.and_eq_true, Bool.or_eq_true, Bool.not_eq_true', List.isEmpty_eq_false_iff]
        at hlist
      obtain ⟨⟨hclose, hnested⟩, hgroup⟩ := hlist
      rw [groups_eq_nil hgroup, List.nil_append] at hopenings
      exact halts_of_closeList hcalls hopenings (Token.isOperator_iff.1 hclose) hnested h
    · -- An operator that does not fit or a second operand in a row is taken and named.
      split at h
      · split at h
        · cases h
        · cases h
          exact .misplaced
      · split at h
        · cases h
          exact .misplaced
        · cases h
      · split at h
        · cases h
          exact .misplaced
        · cases h

theorem Stands.halts (hs : Stands s (Nesting.ofTokens consumed)) (left : List Token)
    (h : ReaderState.step mode s t = .stop result taken) :
    Halts mode (if taken then consumed ++ [t] else consumed) (if taken then left else t :: left)
      result := by
  generalize hn : Nesting.ofTokens consumed = n at hs
  cases hs with
  | level hcalls => exact halts_of_place hcalls (by rw [hn]) h
  | @named _ _ _ name hcalls =>
    obtain ⟨⟨before, rfl⟩, hname⟩ := Nesting.eq_concat_of_name? (congrArg Nesting.name? hn)
    simp only [ReaderState.step] at h
    split at h
    · cases h
    · rename_i hopen
      split at h
      · exact halts_of_place (l := ⟨some _, _⟩) hcalls (by rw [hn]) h
      · rename_i err herr
        cases h
        obtain ⟨expected, got, rfl⟩ := Expr.ofName_error herr
        refine .nameArity hname ?_
        simpa using fun heq => hopen (Token.isOperator_iff.2 heq)
  | opened hcalls =>
    simp only [ReaderState.step] at h
    split at h
    · rename_i hclose
      obtain ⟨rfl, hhalts⟩ := halts_of_closeCall (Token.isOperator_iff.1 hclose)
        (congrArg Nesting.openings hn) rfl h
      exact hhalts
    · split at h
      · exact halts_of_place (l := .empty) (.cons rfl hcalls) (by rw [hn]; rfl) h
      · rename_i hallows
        cases h
        exact .tooDeep (Bool.eq_false_iff.2 hallows)

theorem Stands.halts_atEnd (hs : Stands s (Nesting.ofTokens consumed)) :
    Halts mode consumed [] s.atEnd := by
  have hfinished : ∀ calls l, Halts mode consumed [] (finished calls l) := by
    intro calls l
    unfold finished
    split
    · exact .endOfLine
    · split
      · exact .line
      · exact .endOfLine
  generalize hn : Nesting.ofTokens consumed = n at hs
  cases hs with
  | level _ => exact hfinished _ _
  | @named l calls _ name _ =>
    obtain ⟨⟨before, rfl⟩, hname⟩ := Nesting.eq_concat_of_name? (congrArg Nesting.name? hn)
    cases hof : Expr.ofName name.text [] with
    | ok e =>
      rw [atEnd_named hof]
      exact hfinished _ _
    | error err =>
      rw [atEnd_named_error hof]
      obtain ⟨expected, got, rfl⟩ := Expr.ofName_error hof
      exact .nameArity hname (by simp)
  | opened _ => exact .endOfLine

namespace Halts

variable {what : Misplacement} {name : String} {p expected got : Nat} {e : Expr}

theorem of_position (h : Halts mode consumed left (.error (.misplaced what (some p)))) :
    ∃ before t, consumed = before ++ [t] ∧ t.start = p := by
  cases h with
  | misplaced => exact ⟨_, _, rfl, rfl⟩

theorem of_end (h : Halts mode consumed left (.error (.misplaced what none))) :
    left = [] ∨ (∃ before t, consumed = before ++ [t] ∧ t.IsSeparator) ∨
      ∃ t later, left = t :: later ∧ t.kind = .operator .closeParen ∧
        (Nesting.ofTokens consumed).EndsArgument mode.nested := by
  cases h with
  | endOfLine => exact .inl rfl
  | beforeSeparator hsep => exact .inr (.inl ⟨_, _, rfl, hsep⟩)
  | beforeCloseParen hclose hends => exact .inr (.inr ⟨_, _, rfl, hclose, hends⟩)

theorem of_arity (h : Halts mode consumed left (.error (.wrongArity name expected got))) :
    (∃ before t called outer, consumed = before ++ [t] ∧ t.kind = .operator .closeParen ∧
      (Nesting.ofTokens before).openings = .list called :: outer ∧ called.text = name) ∨
    ∃ before t, consumed = before ++ [t] ∧ t.IsName ∧ t.text = name ∧
      ∀ u ∈ left.head?, u.kind ≠ .operator .openParen := by
  cases h with
  | callArity hclose hopenings => exact .inl ⟨_, _, _, _, rfl, hclose, hopenings, rfl⟩
  | nameArity hname hleft => exact .inr ⟨_, _, rfl, hname, rfl, hleft⟩

theorem of_ok (h : Halts mode consumed left (.ok e)) :
    left = [] ∨ (∃ before t, consumed = before ++ [t] ∧ t.IsSeparator) ∨
      ∃ t later, left = t :: later ∧ t.kind = .operator .closeParen ∧
        mode.nested = true ∧ (Nesting.ofTokens consumed).openings = [] := by
  cases h with
  | line => exact .inl rfl
  | separator hsep => exact .inr (.inl ⟨_, _, rfl, hsep⟩)
  | closeParen hnested hclose hopenings =>
    exact .inr (.inr ⟨_, _, rfl, hclose, hnested, hopenings⟩)

end Halts

theorem Stands.read {ts : List Token} (mode : ReaderMode)
    (hs : Stands s (Nesting.ofTokens consumed))
    (hts : ∀ t ∈ ts, t.HasSign) :
    ∃ taken, consumed ++ ts = taken ++ (s.read mode none ts).2.tokens ∧
      (s.read mode none ts).2.failure = none ∧
      Halts mode taken (s.read mode none ts).2.tokens (s.read mode none ts).1 := by
  induction ts generalizing s consumed with
  | nil => exact ⟨consumed, rfl, rfl, hs.halts_atEnd⟩
  | cons t ts ih =>
    obtain ⟨ht, hts⟩ := List.forall_mem_cons.1 hts
    cases hstep : ReaderState.step mode s t with
    | onward s' =>
      have hs' : Stands s' (Nesting.ofTokens (consumed ++ [t])) := by
        rw [Nesting.ofTokens_concat]
        exact hs.step ht hstep
      rw [read_of_onward hstep]
      simpa using ih hs' hts
    | stop result taken =>
      have hhalts := hs.halts ts hstep
      simp only [ReaderState.read, hstep]
      cases taken with
      | true => exact ⟨consumed ++ [t], by simp, trivial, hhalts⟩
      | false => exact ⟨consumed, rfl, trivial, hhalts⟩

end ReaderState

theorem Scan.eq_of_start {source : String} {t u : Token} (ht : t ∈ (Scan.line source).tokens)
    (hu : u ∈ (Scan.line source).tokens) (h : u.start = t.start) : u = t := by
  have htiles := Scan.tiles_chars 0 source.toList rfl (Nat.zero_le _)
  have hstarts : ((Scan.line source).tokens.map Token.start).Nodup := by
    refine List.pairwise_map.2 (htiles.ordered.imp_of_mem fun ha _ hab heq => ?_)
    have := htiles.bounds _ ha
    omega
  exact List.inj_on_of_nodup_map hstarts hu ht h

/-- Reading a statement leaves the queue at a known place, whatever is wrong. The tokens are taken
one after another and those behind are left. An error with a position is raised when the token at
that position has been taken; one without at the end of the line, behind a comma or before a
parenthesis that ends an argument or a nested statement; and a wrong number of arguments behind the
parenthesis that closes the argument list of the name, or behind the name when no list follows. -/
theorem statement_halts (source : String) (mode : ReaderMode) (q rest : TokenQueue)
    (result : Except Error Expr) (hq : q.tokens <:+ (Scan.line source).tokens)
    (hfailure : q.failure = none) (hread : q.statement mode = (result, rest)) :
    ∃ taken, q.tokens = taken ++ rest.tokens ∧ rest.failure = none ∧
      (∀ what p, result = .error (.misplaced what (some p)) →
        ∃ before t, taken = before ++ [t] ∧ t.start = p ∧ ∀ u ∈ q.tokens, u.start = p → u = t) ∧
      (∀ what, result = .error (.misplaced what none) →
        rest.tokens = [] ∨ (∃ before t, taken = before ++ [t] ∧ t.IsSeparator) ∨
          ∃ t later, rest.tokens = t :: later ∧ t.kind = .operator .closeParen ∧
            (Nesting.ofTokens taken).EndsArgument mode.nested) ∧
      (∀ name expected got, result = .error (.wrongArity name expected got) →
        (∃ before t called outer, taken = before ++ [t] ∧ t.kind = .operator .closeParen ∧
          (Nesting.ofTokens before).openings = .list called :: outer ∧ called.text = name) ∨
        ∃ before t, taken = before ++ [t] ∧ t.IsName ∧ t.text = name ∧
          ∀ u ∈ rest.tokens.head?, u.kind ≠ .operator .openParen) ∧
      ∀ e, result = .ok e →
        rest.tokens = [] ∨ (∃ before t, taken = before ++ [t] ∧ t.IsSeparator) ∨
          ∃ t later, rest.tokens = t :: later ∧ t.kind = .operator .closeParen ∧
            mode.nested = true ∧ (Nesting.ofTokens taken).openings = [] := by
  have hsign : ∀ t ∈ q.tokens, t.HasSign := fun t ht => Scan.hasSign_of_mem (hq.subset ht)
  have hstart : ReaderState.start.Stands (Nesting.ofTokens []) := .level .nil
  have hhalts := hstart.read mode hsign
  rw [TokenQueue.statement, hfailure] at hread
  rw [hread, List.nil_append] at hhalts
  obtain ⟨taken, htokens, hrest, hhalts⟩ := hhalts
  refine ⟨taken, htokens, hrest, ?_, ?_, ?_, ?_⟩
  · rintro what p rfl
    obtain ⟨before, t, rfl, rfl⟩ := hhalts.of_position
    have ht : t ∈ q.tokens := by simp [htokens]
    exact ⟨before, t, rfl, rfl, fun u hu => Scan.eq_of_start (hq.subset ht) (hq.subset hu)⟩
  · rintro what rfl
    exact hhalts.of_end
  · rintro name expected got rfl
    exact hhalts.of_arity
  · rintro e rfl
    exact hhalts.of_ok

/-- The second statement of a line, in which a function of one number gets two, the first of them
in a group. -/
theorem statement_halts_arity :
    let source := "x,sqrt((a),b)+c"
    let tokens := (Scan.line source).tokens
    let q : TokenQueue := ⟨tokens.drop 2, none⟩
    let outcome := q.statement ⟨false, none⟩
    q.tokens <:+ tokens ∧ outcome.1 = .error (.wrongArity "sqrt" 1 2) ∧
      outcome.2.tokens = tokens.drop 10 ∧ ∃ taken, q.tokens = taken ++ outcome.2.tokens ∧
        ((∃ before t called outer, taken = before ++ [t] ∧ t.kind = .operator .closeParen ∧
          (Nesting.ofTokens before).openings = .list called :: outer ∧ called.text = "sqrt") ∨
        ∃ before t, taken = before ++ [t] ∧ t.IsName ∧ t.text = "sqrt" ∧
          ∀ u ∈ outcome.2.tokens.head?, u.kind ≠ .operator .openParen) := by
  refine ⟨List.drop_suffix 2 _, by rfl, by rfl, ?_⟩
  obtain ⟨taken, htokens, -, -, -, harity, -⟩ :=
    statement_halts "x,sqrt((a),b)+c" ⟨false, none⟩
      ⟨(Scan.line "x,sqrt((a),b)+c").tokens.drop 2, none⟩ _ _ (List.drop_suffix 2 _) rfl
      (Prod.eta _).symm
  exact ⟨taken, htokens, harity "sqrt" 1 2 (by rfl)⟩

end Reckon
