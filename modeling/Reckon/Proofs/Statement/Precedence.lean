import Reckon.Proofs.Statement.Grammar
/-!
The grammar against the precedence levels: a waiting operator takes its right operand before an
incoming one exactly if no phrase of the category it waits for goes on with that one.
-/
set_option autoImplicit false

namespace Reckon

def Category.rank : Category → Nat
  | .assign => 3
  | .condition => 4
  | .logicalOr => 5
  | .logicalAnd => 6
  | .bitOr => 7
  | .bitXor => 8
  | .bitAnd => 9
  | .equality => 10
  | .order => 11
  | .shift => 12
  | .addition => 13
  | .multiplication => 14
  | .unary => 15
  | .power => 16
  | .atom => 17

/-- An operator below this level that is not unary ends every phrase of the category. -/
def Category.bound : Category → Nat
  | .assign => 3
  | .condition => 4
  | .unary => 15
  | .power => 15
  | .atom => 17
  | c => c.rank + 1

theorem Category.rank_le_of_tighter {c c' : Category} (h : c.tighter? = some c') :
    c.rank + 1 = c'.rank := by
  cases c <;> cases h <;> rfl

theorem Category.bound_le_of_tighter {c c' : Category} (h : c.tighter? = some c') :
    c.bound ≤ c'.bound := by
  cases c <;> cases h <;> decide

theorem Category.three_le_rank (c : Category) : 3 ≤ c.rank := by cases c <;> decide

theorem Derives.of_rank_le {limit : Limit} {d : Nat} {c c' : Category} {s : List Token} {e : Expr}
    (h : Derives limit d c' s e) (hc : c.rank ≤ c'.rank) : Derives limit d c s e := by
  -- Down from the tighter category, one step of `looser` for each rank in between.
  generalize hn : c'.rank - c.rank = n
  induction n generalizing c with
  | zero =>
    have heq : c = c' := by
      have hrank : c.rank = c'.rank := by omega
      revert hrank
      cases c <;> cases c' <;> simp [Category.rank]
    exact heq ▸ h
  | succ n ih =>
    cases ht : c.tighter? with
    | none =>
      have hatom : c = .atom := by revert ht; cases c <;> simp [Category.tighter?]
      have hmax : c'.rank ≤ 17 := by cases c' <;> decide
      subst hatom
      have : Category.atom.rank = 17 := rfl
      omega
    | some c'' =>
      have hrank := Category.rank_le_of_tighter ht
      exact .looser ht (ih (by omega) (by omega))

namespace Operator

theorem level_ne_unary {op : Operator} (h : op.isUnary = false) :
    op.precedence.level ≠ 15 := by
  revert h
  cases op <;> decide

theorem takesFirst_openParen {op : Operator} (h : op.isUnary = false) :
    Operator.openParen.takesFirst op = decide (op.precedence.level < 2) := by
  revert h
  cases op <;> decide

end Operator

namespace Join

variable {j : Join}

theorem arity_sign : ∀ j ∈ all, j.sign.arity = 2 := by decide

theorem level_sign : ∀ j ∈ all, j.sign.precedence.level = j.whole.rank := by decide

theorem whole_le_left : ∀ j ∈ all, j.whole.rank ≤ j.left.rank := by decide

theorem sign_lt_bound_left : ∀ j ∈ all, j.sign.precedence.level < j.left.bound := by decide

theorem bound_whole_le :
    ∀ j ∈ all, j.whole.bound ≤ j.right.rank ∧ j.whole.bound ≤ j.right.bound := by
  decide

theorem right_le_unary : ∀ j ∈ all, j.right.rank ≤ Category.unary.rank := by decide

theorem left_le_whole : ∀ j ∈ all, ∀ k ∈ all,
    j.sign.precedence.level < k.right.rank → j.left.rank ≤ k.whole.rank := by decide

theorem left_le_unary : ∀ j ∈ all, j.sign.precedence.level < Category.unary.rank →
    j.left.rank ≤ Category.unary.rank := by decide

theorem left_le_atom : ∀ j ∈ all, j.left.rank ≤ Category.atom.rank := by decide

theorem isUnary_sign (h : j ∈ all) : j.sign.isUnary = false := by
  simp [Operator.isUnary, arity_sign j h]

theorem sign_ne_parens : ∀ j ∈ all, j.sign ≠ .openParen ∧ j.sign ≠ .closeParen := by decide

/-- The two ways of grouping in one: the category on the right of a left-grouping operator is
the next tighter one. -/
theorem right_rank : ∀ j ∈ all,
    j.right.rank = (if j.sign.rightAssociative then j.whole.rank else j.whole.rank + 1) ∨
      j.sign.rightAssociative = true ∧ j.whole.rank = 16 ∧ j.right.rank = 15 := by decide

theorem takesFirst_sign (h : j ∈ all) {op : Operator} (hop : op.isUnary = false) :
    j.sign.takesFirst op = decide (op.precedence.level < j.right.rank) := by
  have hlevel := level_sign j h
  have hne := Operator.level_ne_unary hop
  rcases right_rank j h with hr | ⟨hassoc, hwhole, hright⟩
  · cases hassoc : j.sign.rightAssociative <;>
      simp [Operator.takesFirst, hop, hassoc, hlevel, hr]
  · simp only [Operator.takesFirst, hop, hassoc, hlevel, hwhole, hright, Bool.and_false,
      if_true, if_false, Bool.false_eq_true]
    have : op.precedence.level < 16 ↔ op.precedence.level < 15 := by omega
    simp [this]

end Join

theorem leadingSigns_arity : ∀ p ∈ leadingSigns, p.2.arity = 1 := by decide

theorem leadingSigns_fst :
    ∀ p ∈ leadingSigns, p.1 ≠ .openParen ∧ p.1 ≠ .closeParen ∧ p.2 ≠ .openParen ∧
      p.2 ≠ .closeParen ∧ (if p.1 = .subtract then .negate else p.1) = p.2 := by decide

theorem takesFirst_leadingSign {p : Operator × Operator} (h : p ∈ leadingSigns) (op : Operator) :
    op.takesFirst p.2 = false := by
  revert p h
  cases op <;> decide

theorem takesFirst_of_leadingSign {p : Operator × Operator} (h : p ∈ leadingSigns)
    (op : Operator) :
    p.2.takesFirst op = decide (op.precedence.level < Category.unary.rank) := by
  have hp : p.2.isUnary = true ∧ p.2.rightAssociative = true ∧ p.2.precedence.level = 15 := by
    revert p h
    decide
  obtain ⟨h₁, h₂, h₃⟩ := hp
  simp only [Operator.takesFirst, h₁, h₂, h₃, Bool.not_true, Bool.false_and, if_false, if_true,
    Bool.false_eq_true]
  rfl

end Reckon
