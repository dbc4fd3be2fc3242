import Reckon.Proofs.Statement.Steps
/-!
Every sentence of the grammar is read, and as the expression that it means. The main statement is
`Derives.reads`: reading a phrase leaves its expression on the level, with some operators still
waiting that every operator which ends the phrase settles first.
-/
set_option autoImplicit false

namespace Reckon

/-- What waits does not take up an operator with which a phrase of the category goes on. -/
def Admits (c : Category) (ws : List Waiting) : Prop :=
  ∀ w ∈ ws.head?, ∀ j ∈ Join.all, c.rank ≤ j.whole.rank → w.op.takesFirst j.sign = false

namespace Admits

variable {c c' : Category} {ws : List Waiting} {left : Option Expr}

theorem nil (c : Category) : Admits c [] := by simp [Admits]

theorem mono (h : Admits c ws) (hc : c.rank ≤ c'.rank) : Admits c' ws :=
  fun w hw j hj hle => h w hw j hj (Nat.le_trans hc hle)

theorem join {j : Join} (hj : j ∈ Join.all) : Admits j.right (⟨j.sign, left⟩ :: ws) := by
  intro w hw k hk hle
  cases hw
  have hlevel := Join.level_sign k hk
  have hnot : ¬ k.sign.precedence.level < j.right.rank := by omega
  simpa [Join.takesFirst_sign hj (Join.isUnary_sign hk)] using hnot

theorem signed {p : Operator × Operator} (hp : p ∈ leadingSigns) :
    Admits .unary (⟨p.2, left⟩ :: ws) := by
  intro w hw k hk hle
  cases hw
  have hlevel := Join.level_sign k hk
  have hnot : ¬ k.sign.precedence.level < Category.unary.rank := by omega
  simpa [takesFirst_of_leadingSign hp] using hnot

theorem openParen : Admits .assign (⟨.openParen, left⟩ :: ws) := by
  intro w hw k hk _
  cases hw
  have hlevel := Join.level_sign k hk
  have hthree := Category.three_le_rank k.whole
  have hnot : ¬ k.sign.precedence.level < 2 := by omega
  simpa [Operator.takesFirst_openParen (Join.isUnary_sign hk)] using hnot

end Admits

/-- Reading the tokens on a level where nothing has been read since `ws` leaves an operand and
further waiting operators. Whatever ends a phrase of the category cannot tell them from the
expression alone. -/
def Reads (mode : ReaderMode) (failure : Option LexicalError) (calls : List OpenCall)
    (ws : List Waiting) (c : Category) (s : List Token) (e : Expr) : Prop :=
  ∃ operand pending, (∀ w ∈ pending, w.op ≠ .openParen) ∧
    (∀ op : Operator, op.isUnary = false → op.precedence.level < c.bound →
      settle op operand (pending ++ ws) = settle op e ws) ∧
    ∀ ts, (∀ t ∈ ts.head?, t.isOperator .openParen = false) →
      ReaderState.read mode failure ⟨⟨none, ws⟩, calls, .none⟩ (s ++ ts) =
        ReaderState.read mode failure ⟨⟨some operand, pending ++ ws⟩, calls, .none⟩ ts

namespace Reads

variable {mode : ReaderMode} {failure : Option LexicalError} {calls : List OpenCall}
  {ws : List Waiting} {c c' : Category} {s l r : List Token} {t o : Token} {a b e : Expr}

theorem looser (h : c.tighter? = some c') (hs : Reads mode failure calls ws c' s e) :
    Reads mode failure calls ws c s e := by
  obtain ⟨operand, pending, hpending, hsettle, hread⟩ := hs
  have hbound := Category.bound_le_of_tighter h
  exact ⟨operand, pending, hpending,
    fun op hop hlt => hsettle op hop (Nat.lt_of_lt_of_le hlt hbound), hread⟩

theorem join {j : Join} (hj : j ∈ Join.all) (ht : t.kind = .operator j.sign)
    (hws : Admits j.whole ws) (hl : Reads mode failure calls ws j.left l a)
    (hr : Reads mode failure calls (⟨j.sign, some a⟩ :: ws) j.right r b)
    (he : Joined j.sign a b e) : Reads mode failure calls ws j.whole (l ++ t :: r) e := by
  obtain ⟨a', p, -, hsettle, hread⟩ := hl
  obtain ⟨b', q, hq, hsettle', hread'⟩ := hr
  have hunary := Join.isUnary_sign hj
  refine ⟨b', q ++ [⟨j.sign, some a⟩], ?_, ?_, ?_⟩
  · intro w hw
    rcases List.mem_append.1 hw with hw | hw
    · exact hq w hw
    · rw [List.mem_singleton.1 hw]
      exact (Join.sign_ne_parens j hj).1
  · intro op hop hlt
    obtain ⟨hright, hbound⟩ := Join.bound_whole_le j hj
    rw [List.append_assoc, List.singleton_append, hsettle' op hop (by omega)]
    exact settle_join hj hop (by omega) he ws
  · intro ts hts
    have hleft : settle j.sign a' (p ++ ws) = .ok ⟨a, ws, false⟩ := by
      rw [hsettle j.sign hunary (Join.sign_lt_bound_left j hj)]
      exact settle_of_head (fun w hw => hws w hw j hj (Nat.le_refl _)) a
    have hne : t.isOperator .openParen = false := by
      simp [Token.isOperator, ht, (Join.sign_ne_parens j hj).1]
    have hstep : ReaderState.step mode ⟨⟨some a', p ++ ws⟩, calls, .none⟩ t =
        .onward ⟨⟨none, ⟨j.sign, some a⟩ :: ws⟩, calls, .none⟩ :=
      ReaderState.step_push ht (fun h => absurd h (Join.sign_ne_parens j hj).2)
        (Level.push_join hj hleft)
    rw [List.append_assoc, List.cons_append, hread (t :: (r ++ ts)) (by simpa using hne),
      ReaderState.read_of_onward hstep, hread' ts hts]
    simp

theorem signed {p : Operator × Operator} (hp : p ∈ leadingSigns) (ht : t.kind = .operator p.1)
    (hs : Reads mode failure calls (⟨p.2, none⟩ :: ws) .unary s e) :
    Reads mode failure calls ws .unary (t :: s) (.operator p.2 [e]) := by
  obtain ⟨operand, q, hq, hsettle, hread⟩ := hs
  obtain ⟨-, hclose, hopen, -⟩ := leadingSigns_fst p hp
  refine ⟨operand, q ++ [⟨p.2, none⟩], ?_, ?_, ?_⟩
  · intro w hw
    rcases List.mem_append.1 hw with hw | hw
    · exact hq w hw
    · rw [List.mem_singleton.1 hw]
      exact hopen
  · intro op hop hlt
    rw [List.append_assoc, List.singleton_append, hsettle op hop hlt]
    exact settle_signed hp hlt e ws
  · intro ts hts
    have hstep : ReaderState.step mode ⟨⟨none, ws⟩, calls, .none⟩ t =
        .onward ⟨⟨none, ⟨p.2, none⟩ :: ws⟩, calls, .none⟩ :=
      ReaderState.step_push ht (fun h => absurd h hclose) (Level.push_leadingSign hp ws)
    rw [List.cons_append, ReaderState.read_of_onward hstep, hread ts hts]
    simp

theorem of_read (h : ∀ ts, (∀ t ∈ ts.head?, t.isOperator .openParen = false) →
      ReaderState.read mode failure ⟨⟨none, ws⟩, calls, .none⟩ (s ++ ts) =
        ReaderState.read mode failure ⟨⟨some e, ws⟩, calls, .none⟩ ts) :
    Reads mode failure calls ws c s e :=
  ⟨e, [], by simp, fun _ _ _ => rfl, h⟩

theorem number {value : Number} (ht : t.kind = .number value) :
    Reads mode failure calls ws .atom [t] (.constant value) := by
  refine of_read fun ts _ => ?_
  rw [List.singleton_append, ReaderState.read_of_onward (ReaderState.step_number ht)]

theorem name (ht : t.IsName) (he : Named t.text [] e) :
    Reads mode failure calls ws .atom [t] e := by
  refine of_read fun ts hts => ?_
  rw [List.singleton_append, ReaderState.read_of_onward (ReaderState.step_name ht)]
  exact ReaderState.read_named he hts

theorem bareCall (ht : t.IsName) (ho : o.kind = .operator .openParen) {close : Token}
    (hclose : close.kind = .operator .closeParen) (he : Named t.text [] e) :
    Reads mode failure calls ws .atom [t, o, close] e := by
  refine of_read fun ts _ => ?_
  rw [List.cons_append, List.cons_append, List.singleton_append,
    ReaderState.read_of_onward (ReaderState.step_name ht),
    ReaderState.read_of_onward (ReaderState.step_openParen ho),
    ReaderState.read_of_onward (ReaderState.step_bareCall hclose he)]

theorem finish {operand : Expr} {pending : List Waiting}
    (h : ∀ op : Operator, op.isUnary = false → op.precedence.level < Category.assign.bound →
      settle op operand (pending ++ []) = settle op e []) :
    (Level.mk (some operand) pending).finish = .ok e := by
  have hterminator := h .terminator rfl (by decide)
  rw [List.append_nil] at hterminator
  exact Level.finish_of_settle hterminator

theorem group {close : Token} (ho : o.kind = .operator .openParen)
    (hclose : close.kind = .operator .closeParen)
    (hs : Reads mode failure calls (⟨.openParen, none⟩ :: ws) .assign s e) :
    Reads mode failure calls ws .atom (o :: (s ++ [close])) e := by
  obtain ⟨operand, q, -, hsettle, hread⟩ := hs
  refine of_read fun ts _ => ?_
  have hopen : ReaderState.step mode ⟨⟨none, ws⟩, calls, .none⟩ o =
      .onward ⟨⟨none, ⟨.openParen, none⟩ :: ws⟩, calls, .none⟩ :=
    ReaderState.step_push ho (fun h => Operator.noConfusion h) (Level.push_openParen ws)
  have hgroup : (Level.mk (some operand) (q ++ ⟨.openParen, none⟩ :: ws)).inGroup = true := by
    simp [Level.inGroup]
  have hclosed : settle .closeParen operand (q ++ ⟨.openParen, none⟩ :: ws) =
      .ok ⟨e, ws, true⟩ := by
    rw [hsettle .closeParen rfl (by decide)]
    exact settle_group e ws
  have hshut : ReaderState.step mode
      ⟨⟨some operand, q ++ ⟨.openParen, none⟩ :: ws⟩, calls, .none⟩ close =
        .onward ⟨⟨some e, ws⟩, calls, .none⟩ :=
    ReaderState.step_push hclose (fun _ => hgroup) (Level.push_closeParen hclosed)
  have hhead : ∀ t ∈ (close :: ts).head?, t.isOperator .openParen = false := by
    simp [Token.isOperator, hclose]
  rw [List.cons_append, ReaderState.read_of_onward hopen, List.append_assoc,
    List.singleton_append, hread (close :: ts) hhead, ReaderState.read_of_onward hshut]

theorem arguments {initial : List LeadingArgument}
    (hcomma : ∀ a ∈ initial, a.comma.IsSeparator)
    (h : ∀ a ∈ initial, ∀ inner : List OpenCall, inner.length = calls.length + 1 →
      Reads mode failure inner [] .assign a.phrase a.value)
    (name : String) (done : List Expr) (ts : List Token) :
    ReaderState.read mode failure ⟨.empty, ⟨name, ws, done⟩ :: calls, .none⟩
        (initial.flatMap LeadingArgument.tokens ++ ts) =
      ReaderState.read mode failure
        ⟨.empty, ⟨name, ws, (initial.map LeadingArgument.value).reverse ++ done⟩ :: calls, .none⟩
        ts := by
  induction initial generalizing done with
  | nil => rfl
  | cons a initial ih =>
    obtain ⟨operand, q, -, hsettle, hread⟩ := h a (by simp) (⟨name, ws, done⟩ :: calls) rfl
    have hsep : a.comma.IsSeparator := hcomma a (by simp)
    have hhead : ∀ t ∈ (a.comma :: (initial.flatMap LeadingArgument.tokens ++ ts)).head?,
        t.isOperator .openParen = false := by
      simp [Token.isOperator, hsep.1]
    rw [List.append_nil] at hread
    have hstep : ReaderState.step mode ⟨⟨some operand, q⟩, ⟨name, ws, done⟩ :: calls, .none⟩
        a.comma = .onward ⟨.empty, ⟨name, ws, a.value :: done⟩ :: calls, .none⟩ :=
      ReaderState.step_separator hsep (finish hsettle)
    have hrest := ih (fun b hb => hcomma b (by simp [hb])) (fun b hb => h b (by simp [hb]))
      (a.value :: done)
    rw [List.flatMap_cons, LeadingArgument.tokens, List.append_assoc, List.append_assoc,
      List.singleton_append]
    refine (hread _ hhead).trans ?_
    rw [ReaderState.read_of_onward hstep, hrest]
    simp

theorem call {close : Token} {initial : List LeadingArgument} {last : Expr} (ht : t.IsName)
    (ho : o.kind = .operator .openParen) (hclose : close.kind = .operator .closeParen)
    (hallows : mode.limit.allows (calls.length + 1) = true)
    (hcomma : ∀ a ∈ initial, a.comma.IsSeparator)
    (hhead : ∀ t ∈ (initial.flatMap LeadingArgument.tokens ++ s).head?,
      t.isOperator .closeParen = false)
    (hne : s ≠ [])
    (hinitial : ∀ a ∈ initial, ∀ inner : List OpenCall, inner.length = calls.length + 1 →
      Reads mode failure inner [] .assign a.phrase a.value)
    (hlast : ∀ inner : List OpenCall, inner.length = calls.length + 1 →
      Reads mode failure inner [] .assign s last)
    (he : Named t.text (initial.map LeadingArgument.value ++ [last]) e) :
    Reads mode failure calls ws .atom
      (t :: o :: (initial.flatMap LeadingArgument.tokens ++ (s ++ [close]))) e := by
  refine of_read fun ts _ => ?_
  let call : OpenCall := ⟨t.text, ws, (initial.map LeadingArgument.value).reverse⟩
  obtain ⟨operand, q, hq, hsettle, hread⟩ := hlast (call :: calls) rfl
  rw [List.append_nil] at hread
  have hopened : ∀ us, ReaderState.read mode failure ⟨⟨none, ws⟩, calls, .opened t.text⟩
      (initial.flatMap LeadingArgument.tokens ++ (s ++ us)) =
        ReaderState.read mode failure ⟨.empty, ⟨t.text, ws, []⟩ :: calls, .none⟩
      (initial.flatMap LeadingArgument.tokens ++ (s ++ us)) := by
    intro us
    rw [← List.append_assoc]
    cases hcons : initial.flatMap LeadingArgument.tokens ++ s with
    | nil => exact absurd (List.append_eq_nil_iff.1 hcons).2 hne
    | cons u rest =>
      rw [List.cons_append]
      exact ReaderState.read_opened hallows (hhead u (by simp [hcons]))
  have hclosing : ∀ t ∈ (close :: ts).head?, t.isOperator .openParen = false := by
    simp [Token.isOperator, hclose]
  have hstep : ReaderState.step mode ⟨⟨some operand, q⟩, call :: calls, .none⟩ close =
      .onward ⟨⟨some e, ws⟩, calls, .none⟩ :=
    ReaderState.step_closeCall hclose (Level.inGroup_eq_false hq _) (finish hsettle)
      (by simpa [call] using he)
  rw [List.cons_append, List.cons_append, List.append_assoc, List.append_assoc,
    List.singleton_append, ReaderState.read_of_onward (ReaderState.step_name ht),
    ReaderState.read_of_onward (ReaderState.step_openParen ho), hopened,
    arguments hcomma hinitial, List.append_nil]
  refine (hread _ hclosing).trans ?_
  rw [ReaderState.read_of_onward hstep]

end Reads

variable {limit : Limit} {d : Nat} {c : Category} {s : List Token} {e : Expr}

theorem Derives.head (h : Derives limit d c s e) :
    ∃ t r, s = t :: r ∧ t.isOperator .closeParen = false := by
  induction h with
  | looser _ _ ih => exact ih
  | join _ _ _ _ _ ih =>
    obtain ⟨t, r, rfl, ht⟩ := ih
    exact ⟨t, _, rfl, ht⟩
  | signed hp ht =>
    obtain ⟨-, hclose, -⟩ := leadingSigns_fst _ hp
    exact ⟨_, _, rfl, by simp [Token.isOperator, ht, hclose]⟩
  | number ht => exact ⟨_, _, rfl, by simp [Token.isOperator, ht]⟩
  | name ht => exact ⟨_, _, rfl, by simp [Token.isOperator, ht.1]⟩
  | bareCall ht => exact ⟨_, _, rfl, by simp [Token.isOperator, ht.1]⟩
  | call ht => exact ⟨_, _, rfl, by simp [Token.isOperator, ht.1]⟩
  | group ho => exact ⟨_, _, rfl, by simp [Token.isOperator, ho]⟩

theorem Derives.reads {mode : ReaderMode} (failure : Option LexicalError)
    (h : Derives mode.limit d c s e) : ∀ (calls : List OpenCall) (ws : List Waiting),
      calls.length = d → Admits c ws → Reads mode failure calls ws c s e := by
  induction h with
  | looser hc _ ih =>
    intro calls ws hd hws
    have hrank := Category.rank_le_of_tighter hc
    exact .looser hc (ih calls ws hd (hws.mono (by omega)))
  | join hj ht _ _ he ihl ihr =>
    intro calls ws hd hws
    exact .join hj ht hws (ihl calls ws hd (hws.mono (Join.whole_le_left _ hj)))
      (ihr calls _ hd (.join hj)) he
  | signed hp ht _ ih =>
    intro calls ws hd _
    exact .signed hp ht (ih calls _ hd (.signed hp))
  | number ht => exact fun _ _ _ _ => .number ht
  | name ht he => exact fun _ _ _ _ => .name ht he
  | bareCall ht ho hclose he => exact fun _ _ _ _ => .bareCall ht ho hclose he
  | @call d t o close initial s last e ht ho hclose hallows hcomma hinitial hlast he ihi ihl =>
    rintro calls ws rfl -
    obtain ⟨u, r, rfl, hu⟩ := hlast.head
    refine .call ht ho hclose hallows hcomma ?_ (by simp) (fun a ha inner hinner =>
      ihi a ha inner [] hinner (.nil _)) (fun inner hinner => ihl inner [] hinner (.nil _)) he
    cases initial with
    | nil => simpa using hu
    | cons a initial =>
      obtain ⟨v, q, hv, hvclose⟩ := (hinitial a (by simp)).head
      simpa [LeadingArgument.tokens, hv] using hvclose
  | group ho hclose _ ih =>
    intro calls ws hd _
    exact .group ho hclose (ih calls _ hd .openParen)

/-- A sentence followed by what may end a statement is read as its expression. -/
theorem Derives.statement {mode : ReaderMode} {q rest : TokenQueue} {ending : List Token}
    (h : Derives mode.limit 0 .assign s e) (hq : q.tokens = s ++ ending)
    (hend : StatementEnd mode.nested ⟨ending, q.failure⟩ rest) :
    q.statement mode = (.ok e, rest) := by
  obtain ⟨operand, pending, hpending, hsettle, hread⟩ :=
    h.reads q.failure [] [] rfl (.nil _)
  have hfinish := Reads.finish hsettle
  rw [List.append_nil] at hread
  have hstart : q.statement mode =
      ReaderState.read mode q.failure ⟨⟨none, []⟩, [], .none⟩ (s ++ ending) := by
    rw [← hq]
    rfl
  rw [hstart]
  generalize hf : q.failure = failure at *
  cases hend with
  | line =>
    rw [hread [] (by simp)]
    simp [ReaderState.read, ReaderState.atEnd, hfinish]
  | @separator t ts _ ht =>
    have hcomma := Token.isComma_iff.2 ht
    rw [hread (t :: ts) (by simp [Token.isOperator, ht.1])]
    simp [ReaderState.read, ReaderState.step, ReaderState.place, hcomma, ReaderState.comma, hfinish]
  | @closeParen t ts _ hnested ht =>
    have hgroup := Level.inGroup_eq_false hpending (some operand)
    have hcomma : t.isComma = false := by simp [Token.isComma, ht]
    have hclose : t.isOperator .closeParen = true := Token.isOperator_iff.2 ht
    rw [hread (t :: ts) (by simp [Token.isOperator, ht])]
    simp [ReaderState.read, ReaderState.step, ReaderState.place, hcomma, hclose, hnested, hgroup,
      ReaderState.closeList, hfinish]

end Reckon
