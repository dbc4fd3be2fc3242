import Reckon.Proofs.Statement.Steps
/-!
What the operators of a level have in common that wait for their right operands. Behind them lie
phrases of the grammar, begun and not ended (`Begun`), and settling them ends phrases
(`Begun.settle`). A waiting operator that misses its left operand, or has one too many, is never
settled and keeps its statement from being read (`Waiting.Fits`).
-/
set_option autoImplicit false

namespace Reckon

/-- The operator and its left operand can become a node, or a group can be closed. -/
def Waiting.Fits (w : Waiting) : Prop :=
  (w.op.arity = 1 ∧ w.left = none) ∨ (w.op.arity = 2 ∧ w.left ≠ none) ∨
    (w.op = .openParen ∧ w.left = none)

theorem Waiting.fits_of_complete {w : Waiting} {e e' : Expr} (h : w.complete e = .ok e') :
    w.Fits := by
  unfold Waiting.complete at h
  split at h
  · rename_i harity hleft
    exact .inl ⟨harity, hleft⟩
  · cases h
  · rename_i left harity hleft
    exact .inr (.inl ⟨harity, by simp [hleft]⟩)
  · cases h
  · cases h

/-- Settling only ever removes operators that fit. -/
theorem settle_suffix {op : Operator} {ws : List Waiting} {e : Expr} {st : Settled}
    (h : settle op e ws = .ok st) :
    ∃ taken, ws = taken ++ st.waiting ∧ ∀ w ∈ taken, w.Fits := by
  induction ws generalizing e with
  | nil =>
    cases h
    exact ⟨[], rfl, by simp⟩
  | cons w ws ih =>
    simp only [settle] at h
    split at h
    · split at h
      · split at h
        · rename_i hopen
          cases h
          exact ⟨[w], rfl, by simpa using .inr (.inr ⟨hopen.1, by simpa using hopen.2⟩)⟩
        · cases h
      · split at h
        · rename_i e' hcomplete
          obtain ⟨taken, rfl, htaken⟩ := ih h
          exact ⟨w :: taken, rfl, by simpa using ⟨Waiting.fits_of_complete hcomplete, htaken⟩⟩
        · cases h
    · cases h
      exact ⟨[], rfl, by simp⟩

theorem settle_closed {op : Operator} {ws : List Waiting} {e : Expr} {st : Settled}
    (h : settle op e ws = .ok st) (hclosed : st.closed = true) :
    Operator.openParen.takesFirst op = true := by
  induction ws generalizing e with
  | nil =>
    cases h
    cases hclosed
  | cons w ws ih =>
    simp only [settle] at h
    split at h
    · rename_i htakes
      split at h
      · split at h
        · rename_i hopen
          rw [← hopen.1]
          exact htakes
        · cases h
      · split at h
        · exact ih h
        · cases h
    · cases h
      cases hclosed

namespace Level

def Fits (l : Level) : Prop := ∀ w ∈ l.waiting, w.Fits

/-- What taking in a sign can do. In the last case a waiting operator is left that never fits. -/
inductive Pushes : Level → Operator → Level → Prop where
  | signed {p : Operator × Operator} {ws : List Waiting} :
      p ∈ leadingSigns → Pushes ⟨none, ws⟩ p.1 ⟨none, ⟨p.2, none⟩ :: ws⟩
  | group {ws : List Waiting} : Pushes ⟨none, ws⟩ .openParen ⟨none, ⟨.openParen, none⟩ :: ws⟩
  | join {j : Join} {operand : Expr} {ws : List Waiting} {st : Settled} :
      j ∈ Join.all → settle j.sign operand ws = .ok st → st.closed = false →
      Pushes ⟨some operand, ws⟩ j.sign ⟨none, ⟨j.sign, some st.operand⟩ :: st.waiting⟩
  | closeGroup {operand : Expr} {ws : List Waiting} {st : Settled} :
      settle .closeParen operand ws = .ok st → st.closed = true →
      Pushes ⟨some operand, ws⟩ .closeParen ⟨some st.operand, st.waiting⟩
  | misfit {l : Level} {op : Operator} {w : Waiting} {ws : List Waiting} :
      ¬ w.Fits → Pushes l op ⟨none, w :: ws⟩

end Level

theorem Operator.sign_cases : ∀ op ∈ Operator.table, op.isCall = false →
    op = .openParen ∨ op = .closeParen ∨ (∃ j ∈ Join.all, j.sign = op) ∨
      ∃ p ∈ leadingSigns, p.1 = op := by decide

theorem Operator.eq_closeParen : ∀ op ∈ Operator.table, op.isCall = false → op ≠ .openParen →
    Operator.openParen.takesFirst op = true → op = .closeParen := by decide

theorem Join.not_fits {j : Join} (hj : j ∈ Join.all) : ¬ Waiting.Fits ⟨j.sign, none⟩ := by
  have harity := Join.arity_sign j hj
  have hopen := (Join.sign_ne_parens j hj).1
  simp [Waiting.Fits, harity, hopen]

theorem not_fits_of_leadingSign {p : Operator × Operator} (hp : p ∈ leadingSigns) (left : Expr) :
    ¬ Waiting.Fits ⟨p.2, some left⟩ := by
  have harity := leadingSigns_arity p hp
  simp [Waiting.Fits, harity]

theorem leadingSigns_eq : ∀ p ∈ leadingSigns, p.1 ≠ .subtract → p.1 = p.2 := by decide

theorem leadingSigns_join : ∀ p ∈ leadingSigns, p.1 = .subtract → ∃ j ∈ Join.all, j.sign = p.1 := by
  decide

theorem negate_leadingSign : (Operator.subtract, Operator.negate) ∈ leadingSigns := by decide

namespace Level

variable {l l' : Level} {op : Operator}

theorem pushes_of_push_none {ws : List Waiting} (hop : op ∈ Operator.table)
    (hcall : op.isCall = false) (h : (Level.mk none ws).push op = .ok l') :
    Pushes ⟨none, ws⟩ op l' := by
  obtain ⟨rfl, hclose, -⟩ := push_none_eq_ok h
  by_cases hsub : op = .subtract
  · subst hsub
    exact .signed (p := (.subtract, .negate)) negate_leadingSign
  · simp only [hsub, if_false]
    rcases Operator.sign_cases op hop hcall with rfl | rfl | ⟨j, hj, rfl⟩ | ⟨p, hp, rfl⟩
    · exact .group
    · exact absurd rfl hclose
    · exact .misfit (Join.not_fits hj)
    · have heq := leadingSigns_eq p hp hsub
      have hsigned : Pushes ⟨none, ws⟩ p.1 ⟨none, ⟨p.2, none⟩ :: ws⟩ := .signed hp
      rw [← heq] at hsigned
      exact hsigned

theorem pushes_of_push_some {operand : Expr} {ws : List Waiting} (hop : op ∈ Operator.table)
    (hcall : op.isCall = false) (h : (Level.mk (some operand) ws).push op = .ok l') :
    Pushes ⟨some operand, ws⟩ op l' := by
  rcases push_some_eq_ok h with ⟨rfl, rfl⟩ | ⟨hopen, st, hst, hcase⟩
  · exact .misfit (by simp [Waiting.Fits, Operator.arity, Operator.entry])
  · rcases hcase with ⟨hclosed, rfl⟩ | ⟨hclosed, hclose, rfl⟩
    · have htakes := settle_closed hst hclosed
      obtain rfl : op = .closeParen := Operator.eq_closeParen op hop hcall hopen htakes
      exact .closeGroup hst hclosed
    · rcases Operator.sign_cases op hop hcall with rfl | rfl | ⟨j, hj, rfl⟩ | ⟨p, hp, rfl⟩
      · exact absurd rfl hopen
      · exact absurd rfl hclose
      · exact .join hj hst hclosed
      · by_cases hsub : p.1 = .subtract
        · obtain ⟨j, hj, hsign⟩ := leadingSigns_join p hp hsub
          rw [← hsign] at hst ⊢
          exact .join hj hst hclosed
        · rw [leadingSigns_eq p hp hsub]
          exact .misfit (not_fits_of_leadingSign hp st.operand)

theorem pushes_of_push (hop : op ∈ Operator.table) (hcall : op.isCall = false)
    (h : l.push op = .ok l') : Pushes l op l' := by
  obtain ⟨operand, ws⟩ := l
  cases operand with
  | none => exact pushes_of_push_none hop hcall h
  | some operand => exact pushes_of_push_some hop hcall h

theorem Pushes.fits (h : Pushes l op l') (hl' : l'.Fits) : l.Fits := by
  cases h with
  | signed | group =>
    intro w hw
    exact hl' w (List.mem_cons_of_mem _ hw)
  | join _ hst =>
    obtain ⟨taken, rfl, htaken⟩ := settle_suffix hst
    intro w hw
    rcases List.mem_append.1 hw with hw | hw
    · exact htaken w hw
    · exact hl' w (List.mem_cons_of_mem _ hw)
  | closeGroup hst =>
    obtain ⟨taken, rfl, htaken⟩ := settle_suffix hst
    intro w hw
    rcases List.mem_append.1 hw with hw | hw
    · exact htaken w hw
    · exact hl' w hw
  | misfit hw => exact absurd (hl' _ (List.mem_cons_self ..)) hw

theorem settle_of_finish {e : Expr} (h : l.finish = .ok e) :
    ∃ operand, l.operand = some operand ∧
      settle .terminator operand l.waiting = .ok ⟨e, [], false⟩ := by
  unfold finish at h
  split at h
  · cases h
  · rename_i operand hoperand
    refine ⟨operand, hoperand, ?_⟩
    split at h
    · cases h
    · rename_i st hst
      have hclosed : st.closed = false :=
        Bool.eq_false_iff.2 fun hclosed => absurd (settle_closed hst hclosed) (by decide)
      obtain ⟨value, ws, closed⟩ := st
      split at h
      · rename_i hempty
        obtain rfl : closed = false := hclosed
        obtain rfl : ws = [] := List.isEmpty_iff.1 hempty
        cases h
        exact hst
      · cases h

theorem finish_fits {e : Expr} (h : l.finish = .ok e) : l.Fits := by
  obtain ⟨_, -, hsettle⟩ := settle_of_finish h
  obtain ⟨taken, hws, htaken⟩ := settle_suffix hsettle
  intro w hw
  rw [hws, List.append_nil] at hw
  exact htaken w hw

end Level

/-- The tokens of a level up to its last waiting operator, after which a phrase of the category is
to come. -/
inductive Begun (limit : Limit) (d : Nat) : Category → List Waiting → List Token → Prop where
  | nil : Begun limit d .assign [] []
  | join {c : Category} {ws : List Waiting} {s l : List Token} {t : Token} {j : Join} {a : Expr} :
      Begun limit d c ws s → j ∈ Join.all → c.rank ≤ j.whole.rank → Derives limit d j.left l a →
      t.kind = .operator j.sign → Begun limit d j.right (⟨j.sign, some a⟩ :: ws) (s ++ (l ++ [t]))
  | signed {c : Category} {ws : List Waiting} {s : List Token} {t : Token}
      {p : Operator × Operator} :
      Begun limit d c ws s → p ∈ leadingSigns → t.kind = .operator p.1 →
      Begun limit d .unary (⟨p.2, none⟩ :: ws) (s ++ [t])
  | group {c : Category} {ws : List Waiting} {s : List Token} {t : Token} :
      Begun limit d c ws s → t.kind = .operator .openParen →
      Begun limit d .assign (⟨.openParen, none⟩ :: ws) (s ++ [t])

namespace Begun

variable {limit : Limit} {d : Nat} {c c₁ : Category} {ws : List Waiting} {s l : List Token}
  {op : Operator} {e : Expr} {st : Settled}

theorem rank_le_unary (h : Begun limit d c ws s) : c.rank ≤ Category.unary.rank := by
  cases h with
  | nil | group => decide
  | join _ hj => exact Join.right_le_unary _ hj
  | signed => exact Nat.le_refl _

/-- Where settling stops without the end of a group: in front of a phrase that the incoming
operator may go on with. -/
def Stopped (limit : Limit) (d : Nat) (op : Operator) (least : Nat) (tokens : List Token)
    (st : Settled) : Prop :=
  ∃ c c₁ s l, Begun limit d c st.waiting s ∧ Derives limit d c₁ l st.operand ∧
    c.rank ≤ c₁.rank ∧ least ≤ c₁.rank ∧ tokens = s ++ l ∧
    (3 ≤ op.precedence.level → c.rank ≤ op.precedence.level)

/-- Where settling stops with the end of a group: after its open parenthesis. -/
def Closed (limit : Limit) (d : Nat) (tokens : List Token) (st : Settled) : Prop :=
  ∃ c s t l, Begun limit d c st.waiting s ∧ t.kind = .operator .openParen ∧
    Derives limit d .assign l st.operand ∧ tokens = s ++ (t :: l)

theorem settle (least : Nat) (hop : op.isUnary = false)
    (hjoin : ∀ j ∈ Join.all, op.precedence.level < j.right.rank → least ≤ j.whole.rank)
    (hsign : op.precedence.level < Category.unary.rank → least ≤ Category.unary.rank)
    (h : Begun limit d c ws s) (hl : Derives limit d c₁ l e) (hc : c.rank ≤ c₁.rank)
    (hleast : least ≤ c₁.rank) (hs : Reckon.settle op e ws = .ok st) :
    if st.closed then Closed limit d (s ++ l) st else Stopped limit d op least (s ++ l) st := by
  induction h generalizing c₁ l e with
  | nil =>
    cases hs
    exact ⟨_, c₁, [], l, .nil, hl, hc, hleast, rfl, fun h => h⟩
  | @join c ws s₀ l₀ t j a h hj hrank ha ht ih =>
    simp only [Reckon.settle, Join.takesFirst_sign hj hop, Join.arity_sign j hj] at hs
    split at hs
    · rename_i htakes
      have hlt : op.precedence.level < j.right.rank := by simpa using htakes
      simp only [Waiting.complete, Join.arity_sign j hj, Nat.reduceEqDiff, if_false] at hs
      have hwhole : Derives limit d j.whole (l₀ ++ t :: l) (Expr.ofInfix j.sign a e) :=
        .join hj ht ha (hl.of_rank_le hc) (joined_iff.2 rfl)
      simpa using ih hwhole hrank (hjoin j hj hlt) hs
    · rename_i htakes
      have hge : j.right.rank ≤ op.precedence.level := by simpa using htakes
      cases hs
      exact ⟨_, c₁, _, l, .join h hj hrank ha ht, hl, hc, hleast, rfl, fun _ => hge⟩
  | @signed c ws s₀ t p h hp ht ih =>
    simp only [Reckon.settle, takesFirst_of_leadingSign hp, leadingSigns_arity p hp] at hs
    split at hs
    · rename_i htakes
      have hlt : op.precedence.level < Category.unary.rank := by simpa using htakes
      simp only [Waiting.complete, leadingSigns_arity p hp, Nat.reduceEqDiff, if_false] at hs
      have hwhole : Derives limit d .unary (t :: l) (.operator p.2 [e]) :=
        .signed hp ht (hl.of_rank_le hc)
      simpa using ih hwhole h.rank_le_unary (hsign hlt) hs
    · rename_i htakes
      have hge : Category.unary.rank ≤ op.precedence.level := by simpa using htakes
      cases hs
      exact ⟨_, c₁, _, l, .signed h hp ht, hl, hc, hleast, rfl, fun _ => hge⟩
  | @group c ws s₀ t h ht ih =>
    simp only [Reckon.settle] at hs
    split at hs
    · cases hs
      exact ⟨_, s₀, t, l, h, ht, hl.of_rank_le hc, by simp⟩
    · cases hs
      exact ⟨_, c₁, _, l, .group h ht, hl, hc, hleast, rfl, fun h => h⟩

end Begun

end Reckon
