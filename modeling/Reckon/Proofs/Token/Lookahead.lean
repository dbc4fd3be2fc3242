import Mathlib.Data.List.Infix
import Reckon.Token.Queue
import Reckon.Proofs.Token.Extent
/-!
Looking one token ahead. A line need not be cut into tokens at once: a feed cuts it as far as
tokens are asked for and holds back the one that was looked at and not taken. Whatever is asked of
it in whatever order, it answers as the queue does that holds all tokens from the start
(`TokenFeed.simulates`), and what it answers depends only on how many tokens have been taken
(`feed_answers`).
-/
set_option autoImplicit false

namespace Reckon

/-- The part of a line that is not cut into tokens yet. -/
structure Uncut where
  start : Nat
  text : List Char

namespace Uncut

def cut : Nat → List Char → Except LexicalError (Option Token) × Uncut
  | start, [] => (.ok none, ⟨start, []⟩)
  | start, c :: cs =>
    if Lexeme.isBlank c then cut (start + 1) cs
    else
      match Lexeme.first start c cs with
      | .ok l => (.ok (some (l.toToken start)), ⟨start + l.length, (c :: cs).drop l.length⟩)
      | .error e => (.error e, ⟨start, []⟩)

def queue (u : Uncut) : TokenQueue :=
  ⟨(Scan.chars u.start u.text).tokens, (Scan.chars u.start u.text).failure⟩

/-- What can be cut off, by the tokens to come: the first of them, nothing at the end, or the fault
behind the last one. -/
inductive Cuts : TokenQueue → Except LexicalError (Option Token) × Uncut → Prop where
  | token (t : Token) (rest : Uncut) :
      Cuts ⟨t :: rest.queue.tokens, rest.queue.failure⟩ (.ok (some t), rest)
  | ended (start : Nat) : Cuts ⟨[], none⟩ (.ok none, ⟨start, []⟩)
  | fault (start : Nat) (e : LexicalError) : Cuts ⟨[], some e⟩ (.error e, ⟨start, []⟩)

theorem cuts (start : Nat) (cs : List Char) : Cuts (queue ⟨start, cs⟩) (cut start cs) := by
  induction start, cs using Scan.chars_induction with
  | nil start => exact .ended start
  | blank start c cs hc ih =>
    rw [cut, if_pos hc, queue, Scan.chars_of_blank start hc]
    exact ih
  | token start c cs l hc hl ih =>
    simp only [cut, queue, hc, hl, Scan.chars_of_lexeme hc hl]
    exact .token _ ⟨start + l.length, (c :: cs).drop l.length⟩
  | fault start c cs e hc he =>
    simp only [cut, queue, hc, he, Scan.chars_of_fault hc he]
    exact .fault start e

end Uncut

/-- A line that is cut as tokens are asked for. What was looked at last and not taken is held
back: a token, or that there is none. -/
structure TokenFeed where
  uncut : Uncut
  held : Option (Option Token)

namespace TokenFeed

def ofLine (source : String) : TokenFeed := ⟨⟨0, source.toList⟩, none⟩

def peek (f : TokenFeed) : Except LexicalError (Option Token) × TokenFeed :=
  match f.held with
  | some t => (.ok t, f)
  | none =>
    match Uncut.cut f.uncut.start f.uncut.text with
    | (.ok t, uncut) => (.ok t, ⟨uncut, some t⟩)
    | (.error e, uncut) => (.error e, ⟨uncut, none⟩)

def next (f : TokenFeed) : Except LexicalError (Option Token) × TokenFeed :=
  match f.peek with
  | (.ok t, f) => (.ok t, ⟨f.uncut, none⟩)
  | (.error e, f) => (.error e, f)

def atEnd (f : TokenFeed) : Except LexicalError Bool × TokenFeed :=
  match f.peek with
  | (.ok t, f) => (.ok t.isNone, f)
  | (.error e, f) => (.error e, f)

end TokenFeed

/-- How tokens are got from something that has them. -/
structure TokenAccess (σ : Type) where
  peek : σ → Except LexicalError (Option Token) × σ
  next : σ → Except LexicalError (Option Token) × σ
  atEnd : σ → Except LexicalError Bool × σ

def TokenQueue.access : TokenAccess TokenQueue := ⟨peek, next, atEnd⟩

def TokenFeed.access : TokenAccess TokenFeed := ⟨peek, next, atEnd⟩

namespace TokenAccess

/-- What can be asked. Several iterators may go over the same tokens, and each takes the next one
there is. -/
inductive Operation where
  | peek
  | next
  | atEnd
  | advance (iterator : Nat)

inductive Answer where
  | seen (t : Option Token)
  | taken (t : Option Token)
  | ended (b : Bool)

abbrev Result := Except LexicalError Answer

namespace Operation

def takes : Operation → Bool
  | next | advance _ => true
  | peek | atEnd => false

def answer : Operation → Option Token → Answer
  | peek, t => .seen t
  | next, t | advance _, t => .taken t
  | atEnd, t => .ended t.isNone

end Operation

def taken (results : List Result) : List Token :=
  results.filterMap fun
    | .ok (.taken t) => t
    | _ => none

structure State (σ : Type) where
  source : σ
  finished : List Nat

variable {σ τ : Type}

/-- An iterator that has met the end or an error asks for nothing any more. -/
def perform (a : TokenAccess σ) : Operation → State σ → Result × State σ
  | .peek, s => ((a.peek s.source).1.map .seen, ⟨(a.peek s.source).2, s.finished⟩)
  | .next, s => ((a.next s.source).1.map .taken, ⟨(a.next s.source).2, s.finished⟩)
  | .atEnd, s => ((a.atEnd s.source).1.map .ended, ⟨(a.atEnd s.source).2, s.finished⟩)
  | .advance i, s =>
    if i ∈ s.finished then (.ok (.taken none), s)
    else
      match a.next s.source with
      | (.ok (some t), source) => (.ok (.taken (some t)), ⟨source, s.finished⟩)
      | (result, source) => (result.map .taken, ⟨source, i :: s.finished⟩)

def resultsFrom (a : TokenAccess σ) : List Operation → State σ → List Result
  | [], _ => []
  | op :: ops, s => (a.perform op s).1 :: resultsFrom a ops (a.perform op s).2

def after (a : TokenAccess σ) : List Operation → State σ → State σ
  | [], s => s
  | op :: ops, s => after a ops (a.perform op s).2

def results (a : TokenAccess σ) (source : σ) (ops : List Operation) : List Result :=
  a.resultsFrom ops ⟨source, []⟩

theorem resultsFrom_append (a : TokenAccess σ) (first last : List Operation) (s : State σ) :
    a.resultsFrom (first ++ last) s =
      a.resultsFrom first s ++ a.resultsFrom last (a.after first s) := by
  induction first generalizing s with
  | nil => rfl
  | cons op first ih => simp only [List.cons_append, resultsFrom, after, ih]

theorem results_append (a : TokenAccess σ) (source : σ) (first last : List Operation) :
    a.results source (first ++ last) =
      a.results source first ++ a.resultsFrom last (a.after first ⟨source, []⟩) :=
  a.resultsFrom_append first last ⟨source, []⟩

theorem after_concat (a : TokenAccess σ) (ops : List Operation) (op : Operation) (s : State σ) :
    a.after (ops ++ [op]) s = (a.perform op (a.after ops s)).2 := by
  induction ops generalizing s with
  | nil => rfl
  | cons first ops ih => simp only [List.cons_append, after, ih]

/-- Both give the same tokens in states that correspond. -/
structure Simulates (a : TokenAccess σ) (b : TokenAccess τ) (R : σ → τ → Prop) : Prop where
  peek : ∀ {s t}, R s t → (a.peek s).1 = (b.peek t).1 ∧ R (a.peek s).2 (b.peek t).2
  next : ∀ {s t}, R s t → (a.next s).1 = (b.next t).1 ∧ R (a.next s).2 (b.next t).2
  atEnd : ∀ {s t}, R s t → (a.atEnd s).1 = (b.atEnd t).1 ∧ R (a.atEnd s).2 (b.atEnd t).2

namespace Simulates

variable {a : TokenAccess σ} {b : TokenAccess τ} {R : σ → τ → Prop} {s : State σ} {t : State τ}

theorem perform (h : a.Simulates b R) (op : Operation) (hsource : R s.source t.source)
    (hfinished : s.finished = t.finished) :
    (a.perform op s).1 = (b.perform op t).1 ∧
      R (a.perform op s).2.source (b.perform op t).2.source ∧
      (a.perform op s).2.finished = (b.perform op t).2.finished := by
  cases op with
  | peek =>
    obtain ⟨hresult, hnext⟩ := h.peek hsource
    exact ⟨congrArg (Except.map _) hresult, hnext, hfinished⟩
  | next =>
    obtain ⟨hresult, hnext⟩ := h.next hsource
    exact ⟨congrArg (Except.map _) hresult, hnext, hfinished⟩
  | atEnd =>
    obtain ⟨hresult, hnext⟩ := h.atEnd hsource
    exact ⟨congrArg (Except.map _) hresult, hnext, hfinished⟩
  | advance i =>
    obtain ⟨hresult, hnext⟩ := h.next hsource
    simp only [TokenAccess.perform, hfinished]
    split
    · exact ⟨rfl, hsource, hfinished⟩
    · rcases hs : a.next s.source with ⟨result, source⟩
      rcases ht : b.next t.source with ⟨other, source'⟩
      rw [hs, ht] at hresult hnext
      subst hresult
      rcases result with e | _ | u <;> exact ⟨rfl, hnext, by simp⟩

theorem resultsFrom (h : a.Simulates b R) (ops : List Operation) (hsource : R s.source t.source)
    (hfinished : s.finished = t.finished) : a.resultsFrom ops s = b.resultsFrom ops t := by
  induction ops generalizing s t with
  | nil => rfl
  | cons op ops ih =>
    obtain ⟨hresult, hnext, hiterators⟩ := h.perform op hsource hfinished
    rw [TokenAccess.resultsFrom, TokenAccess.resultsFrom, hresult, ih hnext hiterators]

end Simulates

end TokenAccess

namespace TokenFeed

/-- The tokens to come, the one that is held back among them. -/
inductive Shows : TokenFeed → TokenQueue → Prop where
  | uncut (u : Uncut) : Shows ⟨u, none⟩ u.queue
  | token (u : Uncut) (t : Token) : Shows ⟨u, some (some t)⟩ ⟨t :: u.queue.tokens, u.queue.failure⟩
  | ended {u : Uncut} : u.queue = ⟨[], none⟩ → Shows ⟨u, some none⟩ ⟨[], none⟩

variable {f : TokenFeed} {q : TokenQueue}

theorem Shows.peek (h : f.Shows q) : f.peek.1 = q.peek.1 ∧ f.peek.2.Shows q.peek.2 := by
  cases h with
  | token u t => exact ⟨rfl, .token u t⟩
  | ended hu => exact ⟨rfl, .ended hu⟩
  | uncut u =>
    have hcut := Uncut.cuts u.start u.text
    simp only [TokenFeed.peek]
    generalize Uncut.cut u.start u.text = cut at hcut ⊢
    generalize Uncut.queue ⟨u.start, u.text⟩ = q at hcut
    cases hcut with
    | token t rest => exact ⟨rfl, .token rest t⟩
    | ended start => exact ⟨rfl, .ended rfl⟩
    | fault start e => exact ⟨rfl, .uncut ⟨start, []⟩⟩

theorem Shows.next (h : f.Shows q) : f.next.1 = q.next.1 ∧ f.next.2.Shows q.next.2 := by
  cases h with
  | token u t => exact ⟨rfl, .uncut u⟩
  | @ended u hu =>
    have hshows := Shows.uncut u
    rw [hu] at hshows
    exact ⟨rfl, hshows⟩
  | uncut u =>
    have hcut := Uncut.cuts u.start u.text
    simp only [TokenFeed.next, TokenFeed.peek]
    generalize Uncut.cut u.start u.text = cut at hcut ⊢
    generalize Uncut.queue ⟨u.start, u.text⟩ = q at hcut
    cases hcut with
    | token t rest => exact ⟨rfl, .uncut rest⟩
    | ended start => exact ⟨rfl, .uncut ⟨start, []⟩⟩
    | fault start e => exact ⟨rfl, .uncut ⟨start, []⟩⟩

theorem Shows.atEnd (h : f.Shows q) : f.atEnd.1 = q.atEnd.1 ∧ f.atEnd.2.Shows q.atEnd.2 := by
  obtain ⟨hresult, hshows⟩ := h.peek
  rcases hpeek : f.peek with ⟨result, g⟩
  rcases hqpeek : q.peek with ⟨other, r⟩
  rw [hpeek, hqpeek] at hresult hshows
  subst hresult
  rw [TokenFeed.atEnd, TokenQueue.atEnd, hpeek, hqpeek]
  cases result <;> exact ⟨rfl, hshows⟩

theorem simulates : TokenFeed.access.Simulates TokenQueue.access Shows :=
  ⟨Shows.peek, Shows.next, Shows.atEnd⟩

theorem results_ofLine (source : String) (ops : List TokenAccess.Operation) :
    TokenFeed.access.results (ofLine source) ops =
      TokenQueue.access.results (TokenQueue.ofLine source) ops :=
  simulates.resultsFrom ops (.uncut ⟨0, source.toList⟩) rfl

end TokenFeed

namespace TokenAccess

inductive Performs (op : Operation) : State TokenQueue → Result × State TokenQueue → Prop where
  | token (t : Token) (ts : List Token) (failure : Option LexicalError) :
      Performs op ⟨⟨t :: ts, failure⟩, []⟩
        (.ok (op.answer (some t)), ⟨⟨if op.takes then ts else t :: ts, failure⟩, []⟩)
  | fault (e : LexicalError) (finished : List Nat) :
      Performs op ⟨⟨[], some e⟩, []⟩ (.error e, ⟨⟨[], none⟩, finished⟩)
  | ended (finished later : List Nat) :
      Performs op ⟨⟨[], none⟩, finished⟩ (.ok (op.answer none), ⟨⟨[], none⟩, later⟩)

theorem performs (op : Operation) {s : State TokenQueue}
    (h : s.source = ⟨[], none⟩ ∨ s.finished = []) :
    Performs op s (TokenQueue.access.perform op s) := by
  obtain ⟨⟨ts, failure⟩, finished⟩ := s
  cases ts with
  | cons t ts =>
    obtain rfl : finished = [] := by simpa using h
    cases op <;> exact .token t ts failure
  | nil =>
    cases failure with
    | some e =>
      obtain rfl : finished = [] := by simpa using h
      cases op <;> exact .fault e _
    | none =>
      cases op with
      | peek | next | atEnd => exact .ended finished finished
      | advance i =>
        have hperform : TokenQueue.access.perform (.advance i) ⟨⟨[], none⟩, finished⟩ =
            (.ok (.taken none),
              ⟨⟨[], none⟩, if i ∈ finished then finished else i :: finished⟩) := by
          rw [perform]
          split <;> rfl
        exact hperform ▸ .ended finished _

theorem taken_append (first last : List Result) :
    taken (first ++ last) = taken first ++ taken last := List.filterMap_append

theorem taken_answer (op : Operation) (t : Option Token) :
    taken [.ok (op.answer t)] = if op.takes then t.toList else [] := by
  cases op <;> cases t <;> rfl

def Overrun (source : String) (ops : List Operation) : Prop :=
  ∃ first, first <+: ops ∧ first ≠ ops ∧
    taken (TokenQueue.access.results (.ofLine source) first) = (Scan.line source).tokens

theorem overrun_concat {source : String} {ops : List Operation} (op : Operation) :
    Overrun source (ops ++ [op]) ↔ Overrun source ops ∨
      taken (TokenQueue.access.results (.ofLine source) ops) = (Scan.line source).tokens := by
  constructor
  · rintro ⟨first, hprefix, hne, htaken⟩
    have hprefix := (List.prefix_concat_iff.1 hprefix).resolve_left hne
    by_cases heq : first = ops
    · exact .inr (heq ▸ htaken)
    · exact .inl ⟨first, hprefix, heq, htaken⟩
  · rintro (⟨first, hprefix, -, htaken⟩ | htaken)
    · refine ⟨first, hprefix.trans (List.prefix_append ops [op]), ?_, htaken⟩
      rintro rfl
      exact absurd hprefix.length_le (by simp)
    · exact ⟨ops, List.prefix_append ops [op], by simp, htaken⟩

/-- What a number of operations on a line leave of its tokens and of its fault. -/
structure Leaves (source : String) (ops : List Operation) (s : State TokenQueue) : Prop where
  tokens : (Scan.line source).tokens =
    taken (TokenQueue.access.results (.ofLine source) ops) ++ s.source.tokens
  spent : Overrun source ops → s.source = ⟨[], none⟩
  fresh : ¬ Overrun source ops → s.source.failure = (Scan.line source).failure ∧ s.finished = []
  errors : ∀ e, .error e ∈ TokenQueue.access.results (.ofLine source) ops → Overrun source ops

namespace Leaves

variable {source : String} {ops : List Operation} {s : State TokenQueue}

theorem nil (source : String) : Leaves source [] ⟨.ofLine source, []⟩ where
  tokens := rfl
  spent := fun ⟨_, hprefix, hne, _⟩ => absurd (List.prefix_nil.1 hprefix) hne
  fresh := fun _ => ⟨rfl, rfl⟩
  errors := fun _ he => absurd he List.not_mem_nil

theorem performs (h : Leaves source ops s) (op : Operation) :
    Performs op s (TokenQueue.access.perform op s) :=
  TokenAccess.performs op ((em (Overrun source ops)).imp h.spent fun hfresh => (h.fresh hfresh).2)

theorem concat (h : Leaves source ops (TokenQueue.access.after ops ⟨.ofLine source, []⟩))
    (op : Operation) :
    Leaves source (ops ++ [op])
      (TokenQueue.access.after (ops ++ [op]) ⟨.ofLine source, []⟩) := by
  have hperforms := h.performs op
  have hresults := TokenQueue.access.results_append (.ofLine source) ops [op]
  rw [after_concat]
  simp only [resultsFrom] at hresults
  generalize TokenQueue.access.after ops ⟨.ofLine source, []⟩ = s at h hperforms hresults ⊢
  generalize TokenQueue.access.perform op s = done at hperforms hresults ⊢
  -- With a token left nobody has asked for one too many; with none left this operation does.
  cases hperforms with
  | token t ts failure =>
    have hfresh : ¬ Overrun source ops := fun hover => by cases h.spent hover
    have hstill : ¬ Overrun source (ops ++ [op]) := by
      rintro hover
      have htaken := ((overrun_concat op).1 hover).resolve_left hfresh
      have htokens := h.tokens
      rw [htaken] at htokens
      simp at htokens
    refine ⟨?_, fun hover => absurd hover hstill, fun _ => h.fresh hfresh, fun e he => ?_⟩
    · rw [hresults, taken_append, taken_answer, h.tokens]
      cases op.takes <;> simp
    · rw [hresults, List.mem_append] at he
      exact absurd (he.resolve_right (by simp)) fun he => hfresh (h.errors e he)
  | fault e finished =>
    have hover := (overrun_concat op).2 (.inr (by simpa using h.tokens.symm))
    refine ⟨?_, fun _ => rfl, fun hfresh => absurd hover hfresh, fun _ _ => hover⟩
    rw [hresults, taken_append, h.tokens]
    simp [taken]
  | ended finished later =>
    have hover := (overrun_concat op).2 (.inr (by simpa using h.tokens.symm))
    refine ⟨?_, fun _ => rfl, fun hfresh => absurd hover hfresh, fun _ _ => hover⟩
    rw [hresults, taken_append, taken_answer, h.tokens]
    simp

theorem after (source : String) (ops : List Operation) :
    Leaves source ops (TokenQueue.access.after ops ⟨.ofLine source, []⟩) := by
  induction ops using List.reverseRecOn with
  | nil => exact .nil source
  | append_singleton ops op ih => exact ih.concat op

theorem ok_answer (h : Leaves source ops s) {op : Operation} {answer : Answer}
    (hresult : (TokenQueue.access.perform op s).1 = .ok answer) :
    answer = op.answer (Scan.line source).tokens[
      (taken (TokenQueue.access.results (.ofLine source) ops)).length]? := by
  have hperforms := h.performs op
  have htokens := h.tokens
  generalize TokenQueue.access.perform op s = done at hperforms hresult
  cases hperforms with
  | fault e finished => cases hresult
  | token t ts failure => cases hresult; simp [htokens]
  | ended finished later => cases hresult; simp [htokens]

theorem error_iff (h : Leaves source ops s) (op : Operation) (e : LexicalError) :
    (TokenQueue.access.perform op s).1 = .error e ↔ (Scan.line source).failure = some e ∧
      taken (TokenQueue.access.results (.ofLine source) ops) = (Scan.line source).tokens ∧
      ¬ Overrun source ops := by
  have hperforms := h.performs op
  have htokens := h.tokens
  generalize TokenQueue.access.perform op s = done at hperforms
  cases hperforms with
  | token t ts failure =>
    refine iff_of_false (by simp) fun ⟨_, htaken, _⟩ => ?_
    rw [htaken] at htokens
    simp at htokens
  | fault other finished =>
    have hfresh : ¬ Overrun source ops := fun hover => by cases h.spent hover
    have hfailure := (h.fresh hfresh).1
    simp only [List.append_nil] at htokens
    simp [← hfailure, htokens, hfresh]
  | ended finished later =>
    refine iff_of_false (by simp) fun ⟨hfailure, _, hfresh⟩ => ?_
    rw [← (h.fresh hfresh).1] at hfailure
    cases hfailure

theorem ok_of_error (h : Leaves source ops s) (op : Operation) {e : LexicalError}
    (he : .error e ∈ TokenQueue.access.results (.ofLine source) ops) :
    (TokenQueue.access.perform op s).1 = .ok (op.answer none) := by
  have hperforms := h.performs op
  have hspent := h.spent (h.errors e he)
  generalize TokenQueue.access.perform op s = done at hperforms
  cases hperforms with
  | token t ts failure => cases hspent
  | fault other finished => cases hspent
  | ended finished later => rfl

end Leaves

theorem results_replicate_advance (q : TokenQueue) (i : Nat) :
    let ops := List.replicate (q.tokens.length + 1) (.advance i)
    TokenQueue.access.results q ops =
      q.tokens.map (fun t => .ok (.taken (some t))) ++ [q.drain.1.map fun _ => .taken none] ∧
    (TokenQueue.access.after ops ⟨q, []⟩).source = q.drain.2 := by
  obtain ⟨ts, failure⟩ := q
  induction ts with
  | nil => cases failure <;> exact ⟨rfl, rfl⟩
  | cons t ts ih =>
    obtain ⟨hresults, hsource⟩ := ih
    cases failure with
    | none => exact ⟨congrArg (Except.ok (Answer.taken (some t)) :: ·) hresults, hsource⟩
    | some e => exact ⟨congrArg (Except.ok (Answer.taken (some t)) :: ·) hresults, hsource⟩

theorem perform_of_looking {op : Operation} (hop : op.takes = false) {s : State TokenQueue}
    {answer : Answer} (h : (TokenQueue.access.perform op s).1 = .ok answer) :
    (TokenQueue.access.perform op s).2 = s := by
  obtain ⟨⟨ts, failure⟩, finished⟩ := s
  cases op with
  | next | advance i => cases hop
  | peek | atEnd =>
    cases ts with
    | cons t ts => rfl
    | nil =>
      cases failure with
      | none => rfl
      | some e =>
        simp [perform, TokenQueue.access, TokenQueue.peek, TokenQueue.atEnd, Except.map] at h

theorem perform_next_of_peek {s : State TokenQueue} {t : Option Token}
    (h : (TokenQueue.access.perform .peek s).1 = .ok (.seen t)) :
    (TokenQueue.access.perform .next s).1 = .ok (.taken t) := by
  have hpeek : s.source.peek.1.map Answer.seen = .ok (.seen t) := h
  rw [TokenQueue.peek_fst] at hpeek
  change s.source.next.1.map Answer.taken = .ok (.taken t)
  cases hnext : s.source.next.1 with
  | error e => simp [hnext, Except.map] at hpeek
  | ok u =>
    rw [hnext] at hpeek
    cases hpeek
    rfl

/-- Looking ahead loses, repeats and hides nothing. After any operations on a line, those that take
have given the first of its tokens in order, and the next operation answers with the token behind
them, or with the end, as the queue of all tokens does. It fails only when it is the first that
needs a token behind the last one, and then with the fault of the line, which is not met again. An
operation that only looks changes no later answer, and what it sees is what is taken next. -/
theorem feed_answers (source : String) (before : List Operation) (op : Operation) :
    let scan := Scan.line source
    let results := TokenFeed.access.results (.ofLine source)
    let earlier := results before
    ∃ result, results (before ++ [op]) = earlier ++ [result] ∧
      TokenQueue.access.results (.ofLine source) (before ++ [op]) = earlier ++ [result] ∧
      taken earlier <+: scan.tokens ∧
      (∀ answer, result = .ok answer →
        answer = op.answer scan.tokens[(taken earlier).length]?) ∧
      (∀ e, result = .error e ↔ scan.failure = some e ∧ taken earlier = scan.tokens ∧
        ∀ first, first <+: before → first ≠ before → taken (results first) ≠ scan.tokens) ∧
      ((∃ e, .error e ∈ earlier) → result = .ok (op.answer none)) ∧
      (op.takes = false → ∀ answer, result = .ok answer → ∀ after, ∃ later,
        results (before ++ after) = earlier ++ later ∧
        results (before ++ op :: after) = earlier ++ result :: later) ∧
      (op = .peek → ∀ t, result = .ok (.seen t) →
        results (before ++ [.peek, .next]) = earlier ++ [result, .ok (.taken t)]) := by
  intro scan results earlier
  have hqueue : ∀ ops, results ops = TokenQueue.access.results (.ofLine source) ops :=
    TokenFeed.results_ofLine source
  simp only [earlier, hqueue]
  have hleaves := Leaves.after source before
  have hresults := TokenQueue.access.results_append (.ofLine source) before
  refine ⟨_, hresults [op], hresults [op], ⟨_, hleaves.tokens.symm⟩, fun _ => hleaves.ok_answer,
    fun e => ?_, fun ⟨_, he⟩ => hleaves.ok_of_error op he, fun hop answer hok after => ?_, ?_⟩
  · rw [hleaves.error_iff]
    simp only [Overrun, not_exists, not_and]
    rfl
  · refine ⟨_, hresults after, ?_⟩
    rw [hresults, resultsFrom, perform_of_looking hop hok]
  · rintro rfl t hseen
    rw [hresults]
    simp only [resultsFrom]
    rw [perform_of_looking rfl hseen, perform_next_of_peek hseen]

end TokenAccess

end Reckon
