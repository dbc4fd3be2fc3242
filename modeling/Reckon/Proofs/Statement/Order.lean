import Mathlib.Data.List.Chain
import Reckon.Proofs.Statement.Moves
import Reckon.Proofs.Statement.Stack
import Reckon.Proofs.Token.Signs
/-!
The order of the operators that wait. None of them takes its right operand before the one above it
may use that operand, unless the upper one is an open parenthesis (`InOrder`). Every step of the
reader keeps this, on each level (`ReaderState.InOrder.step`), so at any place in any statement an
operator that settles is one for one or two operands or an open parenthesis, which waits for its
end (`waiting_in_order`).
-/
set_option autoImplicit false

namespace Reckon

namespace Operator

def CanWait (op : Operator) : Prop :=
  op.isCall = false ∧ (op = .openParen ∨ op.arity = 1 ∨ op.arity = 2)

/-- What lets other operators settle when it comes: a sign but the open parenthesis, a change of
sign in place of a minus, or the end of a statement. -/
def Settles (op : Operator) : Prop :=
  op = .negate ∨ op = .terminator ∨ op ∈ table ∧ op.isCall = false ∧ op ≠ .openParen

variable {op incoming : Operator}

theorem CanWait.ne (h : op.CanWait) :
    op ≠ .closeParen ∧ op ≠ .terminator ∧ op.arity ≠ 3 := by
  obtain ⟨-, rfl | harity | harity⟩ := h
  · decide
  all_goals
    refine ⟨?_, ?_, by omega⟩ <;>
    · rintro rfl
      cases harity

theorem CanWait.takesFirst_closeParen (h : op.CanWait) : op.takesFirst .closeParen = true := by
  obtain ⟨hcall, hop⟩ := h
  revert hcall hop
  cases op <;> decide

theorem Settles.eq_closeParen (h : incoming.Settles)
    (htakes : Operator.openParen.takesFirst incoming = true) : incoming = .closeParen := by
  rcases h with rfl | rfl | ⟨hmem, hcall, hopen⟩
  · cases htakes
  · cases htakes
  · exact Operator.eq_closeParen incoming hmem hcall hopen htakes

theorem canWait_sign : ∀ op ∈ table, op.isCall = false → op ≠ .closeParen →
    CanWait op ∧ CanWait (if op = .subtract then .negate else op) := by
  unfold CanWait
  decide

end Operator

/-- The operators that wait, innermost first. A lower one would let the one above it take the
operand first. -/
structure InOrder (ws : List Waiting) : Prop where
  adjacent : ws.IsChain fun upper lower =>
    upper.op ≠ .openParen → lower.op.takesFirst upper.op = false
  operators : ∀ w ∈ ws, w.op.CanWait

namespace InOrder

variable {w : Waiting} {ws above : List Waiting}

theorem nil : InOrder [] := ⟨.nil, by simp⟩

theorem cons (h : InOrder ws) (hop : w.op.CanWait)
    (hhead : w.op ≠ .openParen → ∀ v ∈ ws.head?, v.op.takesFirst w.op = false) :
    InOrder (w :: ws) where
  adjacent := List.isChain_cons.2 ⟨fun v hv hne => hhead hne v hv, h.adjacent⟩
  operators := List.forall_mem_cons.2 ⟨hop, h.operators⟩

theorem of_append (h : InOrder (above ++ ws)) : InOrder ws where
  adjacent := h.adjacent.right_of_append
  operators w hw := h.operators w (List.mem_append_right above hw)

end InOrder

theorem Waiting.arity_ne_zero_of_complete {w : Waiting} {e e' : Expr}
    (h : w.complete e = .ok e') : w.op.arity ≠ 0 := by
  intro hzero
  simp [complete, hzero] at h

theorem Waiting.ne_openParen_of_complete {w : Waiting} {e e' : Expr}
    (h : w.complete e = .ok e') : w.op ≠ .openParen :=
  fun hopen => arity_ne_zero_of_complete h (congrArg Operator.arity hopen)

theorem Waiting.Fits.complete {w : Waiting} (h : w.Fits) (hopen : w.op ≠ .openParen) (e : Expr) :
    ∃ e', w.complete e = .ok e' := by
  rcases h with ⟨harity, hleft⟩ | ⟨harity, hleft⟩ | ⟨hparen, -⟩
  · exact ⟨.operator w.op [e], by simp [Waiting.complete, harity, hleft]⟩
  · obtain ⟨left, hleft⟩ := Option.ne_none_iff_exists'.1 hleft
    exact ⟨Expr.ofInfix w.op left e, by simp [Waiting.complete, harity, hleft]⟩
  · exact absurd hparen hopen

namespace Level

/-- A level after some of its operators have taken the operand before the incoming one. -/
inductive Lowers (op : Operator) : Level → Level → Prop where
  | none {l : Level} : Lowers op l l
  | complete {w : Waiting} {ws : List Waiting} {e e' : Expr} {l : Level} :
      w.op.takesFirst op = true → w.complete e = .ok e' → Lowers op ⟨some e', ws⟩ l →
      Lowers op ⟨some e, w :: ws⟩ l

variable {op : Operator} {l l' : Level} {e : Expr} {ws rest : List Waiting} {operand : Option Expr}

theorem Lowers.exists_taken (h : Lowers op l l') :
    ∃ taken, l.waiting = taken ++ l'.waiting ∧ ∀ w ∈ taken, w.op ≠ .openParen ∧ w.Fits := by
  induction h with
  | none => exact ⟨[], rfl, by simp⟩
  | @complete w _ _ _ _ _ hcomplete _ ih =>
    obtain ⟨taken, hws, htaken⟩ := ih
    have hhead : w.op ≠ .openParen ∧ w.Fits :=
      ⟨Waiting.ne_openParen_of_complete hcomplete, Waiting.fits_of_complete hcomplete⟩
    exact ⟨w :: taken, congrArg (w :: ·) hws, List.forall_mem_cons.2 ⟨hhead, htaken⟩⟩

theorem Lowers.inOrder (h : Lowers op l l') (hl : InOrder l.waiting) : InOrder l'.waiting := by
  obtain ⟨taken, hws, -⟩ := h.exists_taken
  exact (hws ▸ hl).of_append

theorem Lowers.settle_eq {e' : Expr} (h : Lowers op ⟨some e, ws⟩ ⟨some e', rest⟩) :
    settle op e ws = settle op e' rest := by
  generalize hl : Level.mk (some e) ws = l at h
  generalize hl' : Level.mk (some e') rest = l' at h
  induction h generalizing e ws with
  | none =>
    cases hl'.trans hl.symm
    rfl
  | complete htakes hcomplete _ ih =>
    cases hl
    have harity := Waiting.arity_ne_zero_of_complete hcomplete
    rw [← ih rfl hl', settle, if_pos htakes, if_neg harity, hcomplete]

theorem settle_eq_ok_iff {st : Settled} :
    settle op e ws = .ok st ↔
      if st.closed then
        Operator.openParen.takesFirst op = true ∧
          Lowers op ⟨some e, ws⟩ ⟨some st.operand, ⟨.openParen, none⟩ :: st.waiting⟩
      else
        (∀ w ∈ st.waiting.head?, w.op.takesFirst op = false) ∧
          Lowers op ⟨some e, ws⟩ ⟨some st.operand, st.waiting⟩ := by
  constructor
  · intro h
    induction ws generalizing e with
    | nil =>
      cases h
      exact ⟨by simp, .none⟩
    | cons w ws ih =>
      simp only [settle] at h
      split at h
      · rename_i htakes
        split at h
        · split at h
          · rename_i hopen
            obtain ⟨sign, left⟩ := w
            obtain ⟨rfl, hleft⟩ := hopen
            obtain rfl : left = none := by simpa using hleft
            cases h
            exact ⟨htakes, .none⟩
          · cases h
        · split at h
          · rename_i hcomplete
            have hrest := ih h
            split at hrest
            · rename_i hclosed
              rw [if_pos hclosed]
              exact ⟨hrest.1, .complete htakes hcomplete hrest.2⟩
            · rename_i hclosed
              rw [if_neg hclosed]
              exact ⟨hrest.1, .complete htakes hcomplete hrest.2⟩
          · cases h
      · rename_i htakes
        cases h
        exact ⟨by simpa using htakes, .none⟩
  · intro h
    obtain ⟨operand, waiting, closed⟩ := st
    cases closed with
    | true =>
      obtain ⟨htakes, hlow⟩ := h
      have harity : Operator.openParen.arity = 0 := rfl
      rw [hlow.settle_eq]
      simp [settle, htakes, harity]
    | false =>
      obtain ⟨hhead, hlow⟩ := h
      rw [hlow.settle_eq]
      exact settle_of_head hhead operand

theorem lowers_closeParen {above : List Waiting}
    (hwait : ∀ w ∈ above, w.op.CanWait) (hfits : ∀ w ∈ above, w.op ≠ .openParen ∧ w.Fits)
    (e : Expr) (ws : List Waiting) :
    ∃ e', Lowers .closeParen ⟨some e, above ++ ws⟩ ⟨some e', ws⟩ := by
  induction above generalizing e with
  | nil => exact ⟨e, .none⟩
  | cons w above ih =>
    obtain ⟨hw, hwait⟩ := List.forall_mem_cons.1 hwait
    obtain ⟨⟨hopen, hw'⟩, hfits⟩ := List.forall_mem_cons.1 hfits
    obtain ⟨value, hcomplete⟩ := hw'.complete hopen e
    obtain ⟨e', hlow⟩ := ih hwait hfits value
    exact ⟨e', .complete hw.takesFirst_closeParen hcomplete hlow⟩

theorem push_closeParen_iff (hws : InOrder ws) :
    (∃ l, (Level.mk operand ws).push .closeParen = .ok l ∧ l.waiting = rest) ↔
      operand.isSome ∧ ∃ above, ws = above ++ ⟨.openParen, none⟩ :: rest ∧
        ∀ w ∈ above, w.op ≠ .openParen ∧ w.Fits := by
  constructor
  · rintro ⟨l, hpush, rfl⟩
    cases operand with
    | none => exact absurd rfl (push_none_eq_ok hpush).2.1
    | some e =>
      rcases push_some_eq_ok hpush with ⟨hopen, -⟩ | ⟨-, st, hst, hcase⟩
      · cases hopen
      · rcases hcase with ⟨hclosed, rfl⟩ | ⟨-, hclose, -⟩
        · have hlow := settle_eq_ok_iff.1 hst
          rw [if_pos hclosed] at hlow
          obtain ⟨above, hws, habove⟩ := hlow.2.exists_taken
          exact ⟨rfl, above, hws, habove⟩
        · exact absurd rfl hclose
  · rintro ⟨hoperand, above, rfl, habove⟩
    obtain ⟨e, rfl⟩ := Option.isSome_iff_exists.1 hoperand
    have hwait : ∀ w ∈ above, w.op.CanWait :=
      fun w hw => hws.operators w (List.mem_append_left _ hw)
    obtain ⟨e', hlow⟩ := lowers_closeParen hwait habove e (⟨.openParen, none⟩ :: rest)
    have hsettle := hlow.settle_eq.trans (settle_group e' rest)
    exact ⟨_, push_closeParen hsettle, rfl⟩

theorem finish_eq_ok_iff :
    (Level.mk operand ws).finish = .ok e ↔
      operand.isSome ∧ (Level.mk operand ws).push .terminator =
        .ok ⟨none, [⟨.terminator, some e⟩]⟩ := by
  cases operand with
  | none => simp [finish]
  | some operand =>
    cases hst : settle .terminator operand ws with
    | error m => simp [finish, push, hst]
    | ok st =>
      have hclosed : st.closed = false :=
        Bool.eq_false_iff.2 fun hclosed => absurd (settle_closed hst hclosed) (by decide)
      cases hrest : st.waiting <;> simp [finish, push, hst, hclosed, hrest]

end Level

theorem InOrder.push {l l' : Level} {op : Operator} (hl : InOrder l.waiting)
    (hop : op ∈ Operator.table) (hcall : op.isCall = false) (h : l.push op = .ok l') :
    InOrder l'.waiting := by
  obtain ⟨operand, ws⟩ := l
  cases operand with
  | none =>
    obtain ⟨rfl, hclose, hhead⟩ := Level.push_none_eq_ok h
    exact hl.cons (Operator.canWait_sign op hop hcall hclose).2 hhead
  | some e =>
    rcases Level.push_some_eq_ok h with ⟨rfl, rfl⟩ | ⟨-, st, hst, hcase⟩
    · exact hl.cons ⟨rfl, .inl rfl⟩ (absurd rfl)
    · have hlow := Level.settle_eq_ok_iff.1 hst
      rcases hcase with ⟨hclosed, rfl⟩ | ⟨hclosed, hclose, rfl⟩
      · rw [if_pos hclosed] at hlow
        have hgroup : InOrder ([⟨.openParen, none⟩] ++ st.waiting) := hlow.2.inOrder hl
        exact hgroup.of_append
      · rw [hclosed] at hlow
        exact (hlow.2.inOrder hl).cons (Operator.canWait_sign op hop hcall hclose).1
          fun _ => hlow.1

namespace ReaderState

def waiting (s : ReaderState) : List (List Waiting) :=
  s.level.waiting :: s.calls.map OpenCall.waiting

def Ordered (s : ReaderState) : Prop := ∀ ws ∈ s.waiting, InOrder ws

def after? (mode : ReaderMode) : ReaderState → List Token → Option ReaderState
  | s, [] => some s
  | s, t :: ts =>
    match s.step mode t with
    | .onward s' => after? mode s' ts
    | .stop _ _ => none

variable {mode : ReaderMode} {limit : Limit} {s s' : ReaderState} {t : Token} {ts : List Token}
  {l : Level} {calls : List OpenCall}

theorem Ordered.start : start.Ordered := by
  simpa [Ordered, waiting, ReaderState.start, Level.empty] using InOrder.nil

theorem Ordered.resolves (hs : s.Ordered) (h : Resolves limit s s') : s'.Ordered := by
  cases h with
  | none => exact hs
  | named => exact hs
  | opened => exact List.forall_mem_cons.2 ⟨InOrder.nil, hs⟩

theorem Ordered.places (hs : Ordered ⟨l, calls, .none⟩) (ht : t.HasSign)
    (h : Places mode l calls t (.onward s')) : s'.Ordered := by
  cases h with
  | separator =>
    obtain ⟨-, hcalls⟩ := List.forall_mem_cons.1 hs
    exact List.forall_mem_cons.2 ⟨InOrder.nil, hcalls⟩
  | closeCall =>
    obtain ⟨-, hcalls⟩ := List.forall_mem_cons.1 hs
    exact hcalls
  | push hkind hpush =>
    obtain ⟨hlevel, hcalls⟩ := List.forall_mem_cons.1 hs
    obtain ⟨hop, hcall⟩ := ht _ hkind
    exact List.forall_mem_cons.2 ⟨hlevel.push hop hcall hpush, hcalls⟩
  | number => exact hs
  | name => exact hs

theorem Ordered.step (hs : s.Ordered) (ht : t.HasSign) (h : step mode s t = .onward s') :
    s'.Ordered := by
  rcases moves_of_step mode s t with hmoves | ⟨err, taken, hstop⟩
  · rw [h] at hmoves
    cases hmoves with
    | openList => exact hs
    | bareCall => exact hs
    | place hresolves hplaces => exact (hs.resolves hresolves).places ht hplaces
  · rw [h] at hstop
    cases hstop

theorem Ordered.after (hs : s.Ordered) (hts : ∀ t ∈ ts, t.HasSign)
    (h : s.after? mode ts = some s') : s'.Ordered := by
  induction ts generalizing s with
  | nil =>
    cases h
    exact hs
  | cons t ts ih =>
    obtain ⟨ht, hts⟩ := List.forall_mem_cons.1 hts
    unfold after? at h
    split at h
    · rename_i hstep
      exact ih (hs.step ht hstep) hts h
    · cases h

theorem read_append (h : s.after? mode ts = some s') (failure : Option LexicalError)
    (left : List Token) : s.read mode failure (ts ++ left) = s'.read mode failure left := by
  induction ts generalizing s with
  | nil =>
    cases h
    rfl
  | cons t ts ih =>
    unfold after? at h
    split at h
    · rename_i hstep
      rw [List.cons_append, read_of_onward hstep]
      exact ih h
    · cases h

end ReaderState

/-- What an operator meets that settles where the others wait in order: no close parenthesis, no
end and no operator of three operands, and an open parenthesis only if it closes it. -/
theorem InOrder.head_of_takesFirst {ws : List Waiting} {op : Operator} (h : InOrder ws)
    (hop : op.Settles) : ∀ w ∈ ws.head?, w.op.takesFirst op = true →
      w.op ≠ .closeParen ∧ w.op ≠ .terminator ∧ w.op.arity ≠ 3 ∧
        (w.op = .openParen → op = .closeParen) := by
  intro w hw htakes
  obtain ⟨hclose, hend, harity⟩ := (h.operators w (List.mem_of_mem_head? hw)).ne
  exact ⟨hclose, hend, harity, fun hopen => hop.eq_closeParen (hopen ▸ htakes)⟩

/-- Between any two tokens of a statement, of any that a line can have, the operators wait in order
on the level being read and below each open call. They still do after each of them that an incoming
operator settles; it meets no close parenthesis, no end of the statement and no operator of three
operands, and an open parenthesis only if it closes it. A close parenthesis takes away what stands
above the nearest open one, and that one. The end comes last of all: a statement is finished when
its end, taken in like an operator, is all that waits. -/
theorem waiting_in_order {mode : ReaderMode} {ts : List Token} {s : ReaderState}
    (hts : ∀ t ∈ ts, t.HasSign) (hs : ReaderState.start.after? mode ts = some s) :
    (∀ failure left,
      ReaderState.start.read mode failure (ts ++ left) = s.read mode failure left) ∧
    ∀ ws ∈ s.waiting, InOrder ws ∧
      (∀ op e e' rest, op.Settles → Level.Lowers op ⟨some e, ws⟩ ⟨some e', rest⟩ →
        settle op e ws = settle op e' rest ∧ InOrder rest ∧
          ∀ w ∈ rest.head?, w.op.takesFirst op = true →
            w.op ≠ .closeParen ∧ w.op ≠ .terminator ∧ w.op.arity ≠ 3 ∧
              (w.op = .openParen → op = .closeParen)) ∧
      (∀ operand rest,
        (∃ l, (Level.mk operand ws).push .closeParen = .ok l ∧ l.waiting = rest) ↔
          operand.isSome ∧ ∃ above, ws = above ++ ⟨.openParen, none⟩ :: rest ∧
            ∀ w ∈ above, w.op ≠ .openParen ∧ w.Fits) ∧
      ∀ operand e, (Level.mk operand ws).finish = .ok e ↔
        operand.isSome ∧ (Level.mk operand ws).push .terminator =
          .ok ⟨none, [⟨.terminator, some e⟩]⟩ := by
  refine ⟨ReaderState.read_append hs, fun ws hws => ?_⟩
  have horder : InOrder ws := ReaderState.Ordered.start.after hts hs ws hws
  refine ⟨horder, fun op e e' rest hop hlow => ?_, fun _ _ => Level.push_closeParen_iff horder,
    fun _ _ => Level.finish_eq_ok_iff⟩
  have hrest : InOrder rest := hlow.inOrder horder
  exact ⟨hlow.settle_eq, hrest, hrest.head_of_takesFirst hop⟩

theorem waiting_in_order_group :
    let ts := (Scan.line "f(a,(b+c*-d").tokens
    let group : List Waiting :=
      [⟨.negate, none⟩, ⟨.multiply, some (.call "c" [])⟩, ⟨.add, some (.call "b" [])⟩,
        ⟨.openParen, none⟩]
    let s : ReaderState := ⟨⟨none, group⟩, [⟨"f", [], [.call "a" []]⟩], .named "d"⟩
    (∀ t ∈ ts, t.HasSign) ∧ ReaderState.start.after? ⟨false, none⟩ ts = some s ∧
      InOrder group ∧ ∀ e, ∃ l, (Level.mk (some e) group).push .closeParen = .ok l ∧
        l.waiting = [] := by
  intro ts group s
  have hts : ∀ t ∈ ts, t.HasSign := fun t ht => Scan.hasSign_of_mem ht
  have hs : ReaderState.start.after? ⟨false, none⟩ ts = some s := by rfl
  obtain ⟨horder, -, hclose, -⟩ := (waiting_in_order hts hs).2 group (List.mem_cons_self ..)
  refine ⟨hts, hs, horder, fun e => (hclose (some e) []).2 ⟨rfl, group.take 3, rfl, ?_⟩⟩
  simp [group, Waiting.Fits, Operator.arity, Operator.entry]

end Reckon
