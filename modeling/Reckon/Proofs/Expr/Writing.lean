import Reckon.Expr.Basic
import Reckon.Proofs.Token.Spelling
set_option autoImplicit false

namespace Reckon

namespace Expr

def grouped (text : List Char) : List Char := '(' :: (text ++ [')'])

def argumentList : List (List Char) → List Char
  | [] => []
  | text :: texts => grouped ([','].intercalate (text :: texts))

/-- The text is a way to write the expression. -/
inductive Writes : Expr → List Char → Prop where
  | constant (n : Numeral) : Writes (.constant n.decimal.nearest) n.chars
  | call {name : String} {quote : Char} {parts : List (Expr × List Char)} :
      Lexeme.isQuote quote = true → quote ∉ name.toList → (∀ p ∈ parts, Writes p.1 p.2) →
      Writes (.call name (parts.map Prod.fst))
        (Lexeme.inQuotes quote name.toList ++ argumentList (parts.map Prod.snd))
  | builtIn {op : Operator} {name : List Char} {parts : List (Expr × List Char)} :
      op.isCall = true →
      (name = op.name.toList ∨
        ∃ quote, Lexeme.isQuote quote = true ∧ name = Lexeme.inQuotes quote op.name.toList) →
      (∀ p ∈ parts, Writes p.1 p.2) →
      Writes (.operator op (parts.map Prod.fst)) (name ++ argumentList (parts.map Prod.snd))
  | unary {op : Operator} {operand : Expr} {text : List Char} :
      op.isCall = false → Writes operand text →
      Writes (.operator op [operand]) (op.name.toList ++ grouped text)
  | binary {op : Operator} {left right : Expr} {l r : List Char} :
      op.isCall = false → Writes left l → Writes right r →
      Writes (.operator op [left, right])
        (grouped l ++ ' ' :: (op.name.toList ++ ' ' :: grouped r))
  | conditional {condition yes no : Expr} {c y n : List Char} :
      Writes condition c → Writes yes y → Writes no n →
      Writes (.operator .conditional [condition, yes, no])
        (grouped c ++ ' ' :: '?' :: ' ' :: (grouped y ++ ' ' :: ':' :: ' ' :: grouped n))

/-- Constants are finite and without a sign, nodes have as many operands as their operators take,
names are not those of the registry and lack one kind of quotes, and no question mark would take
over a colon node. -/
inductive Writable : Expr → Prop where
  | constant {units : Nat} {h : Representable units} :
      Writable (.constant (.finite false units h))
  | call {name : String} {operands : List Expr} :
      (∀ op ∈ Operator.table, op.name ≠ name) → name ≠ "," →
      (∃ quote, Lexeme.isQuote quote = true ∧ quote ∉ name.toList) →
      (∀ e ∈ operands, Writable e) → Writable (.call name operands)
  | operator {op : Operator} {operands : List Expr} :
      op ∈ Operator.table ∨ op = .negate ∨ op = .conditional →
      op ≠ .openParen → op ≠ .closeParen → operands.length = op.arity →
      (op = .question → ∀ left branches, operands ≠ [left, .operator .colon branches]) →
      (∀ e ∈ operands, Writable e) → Writable (.operator op operands)

mutual

def argumentDepth : Expr → Nat
  | .constant _ => 0
  | .operator op operands =>
    (if op.isCall && !operands.isEmpty then 1 else 0) + argumentDepths operands
  | .call _ operands => (if operands.isEmpty then 0 else 1) + argumentDepths operands

def argumentDepths : List Expr → Nat
  | [] => 0
  | e :: es => max (argumentDepth e) (argumentDepths es)

end

theorem argumentDepth_le_of_mem {e : Expr} {es : List Expr} (h : e ∈ es) :
    argumentDepth e ≤ argumentDepths es := by
  induction es with
  | nil => simp at h
  | cons e' es ih =>
    rw [argumentDepths]
    rcases List.mem_cons.1 h with rfl | h
    · exact Nat.le_max_left ..
    · exact Nat.le_trans (ih h) (Nat.le_max_right ..)

variable {op : Operator} {name : String} {operands : List Expr}

theorem argumentDepth_call (h : operands ≠ []) :
    argumentDepth (.call name operands) = argumentDepths operands + 1 := by
  simp [argumentDepth, h, Nat.add_comm]

theorem argumentDepth_builtIn (hcall : op.isCall = true) (h : operands ≠ []) :
    argumentDepth (.operator op operands) = argumentDepths operands + 1 := by
  simp [argumentDepth, hcall, h, Nat.add_comm]

theorem argumentDepth_sign (hcall : op.isCall = false) :
    argumentDepth (.operator op operands) = argumentDepths operands := by
  simp [argumentDepth, hcall]

theorem exists_parts (h : ∀ e ∈ operands, ∃ text, Writes e text) :
    ∃ parts : List (Expr × List Char), parts.map Prod.fst = operands ∧
      ∀ p ∈ parts, Writes p.1 p.2 := by
  induction operands with
  | nil => exact ⟨[], rfl, by simp⟩
  | cons e es ih =>
    obtain ⟨⟨text, htext⟩, hes⟩ := List.forall_mem_cons.1 h
    obtain ⟨parts, rfl, hparts⟩ := ih hes
    exact ⟨(e, text) :: parts, rfl, List.forall_mem_cons.2 ⟨htext, hparts⟩⟩

theorem arity_of_not_isCall : op ≠ .openParen → op ≠ .closeParen →
    op ≠ .terminator → op.isCall = false → op.arity = 1 ∨ op.arity = 2 ∨ op = .conditional := by
  cases op <;> decide

theorem Writable.exists_writes {e : Expr} (h : e.Writable) : ∃ text, Writes e text := by
  induction h with
  | @constant units h =>
    have hwrites := Writes.constant (Numeral.exact units)
    rw [Numeral.nearest_exact h] at hwrites
    exact ⟨_, hwrites⟩
  | call _ _ hquote _ ih =>
    obtain ⟨quote, hquote, hname⟩ := hquote
    obtain ⟨parts, rfl, hparts⟩ := exists_parts ih
    exact ⟨_, .call hquote hname hparts⟩
  | @operator op operands hop hopen hclose hlength _ _ ih =>
    obtain ⟨parts, rfl, hparts⟩ := exists_parts ih
    cases hcall : op.isCall with
    | true => exact ⟨_, .builtIn hcall (.inl rfl) hparts⟩
    | false =>
      have hend : op ≠ .terminator := by
        rintro rfl
        exact absurd hop (by decide)
      rw [List.length_map] at hlength
      rcases arity_of_not_isCall hopen hclose hend hcall with harity | harity | rfl
      · match parts, harity ▸ hlength with
        | [p], _ => exact ⟨_, .unary hcall (hparts p (by simp))⟩
      · match parts, harity ▸ hlength with
        | [p, q], _ => exact ⟨_, .binary hcall (hparts p (by simp)) (hparts q (by simp))⟩
      · match parts, hlength with
        | [p, q, r], _ =>
          exact ⟨_, .conditional (hparts p (by simp)) (hparts q (by simp)) (hparts r (by simp))⟩

end Expr

end Reckon
