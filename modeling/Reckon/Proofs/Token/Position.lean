import Reckon.Token.Queue
set_option autoImplicit false

namespace Reckon

def LexicalError.shift (n : Nat) : LexicalError → LexicalError
  | .invalidConstant text start => .invalidConstant text (start + n)
  | .overflow base text start => .overflow base text (start + n)

def Token.shift (n : Nat) (t : Token) : Token :=
  { t with start := t.start + n, stop := t.stop + n }

def LexicalError.relocate (f : Nat → Nat) : LexicalError → LexicalError
  | .invalidConstant text start => .invalidConstant text (f start)
  | .overflow base text start => .overflow base text (f start)

def Token.relocate (f : Nat → Nat) (t : Token) : Token :=
  { t with start := f t.start, stop := f t.stop }

theorem LexicalError.shift_eq_relocate (n : Nat) :
    LexicalError.shift n = LexicalError.relocate (· + n) := by
  funext e
  cases e <;> rfl

theorem Token.isOperator_relocate (f : Nat → Nat) (op : Operator) (t : Token) :
    (t.relocate f).isOperator op = t.isOperator op := rfl

theorem Token.isComma_relocate (f : Nat → Nat) (t : Token) :
    (t.relocate f).isComma = t.isComma := rfl

def Scan.shift (n : Nat) (s : Scan) : Scan :=
  ⟨s.tokens.map (Token.shift n), s.failure.map (LexicalError.shift n)⟩

namespace Lexeme

theorem toToken_add (l : Lexeme) (start n : Nat) :
    l.toToken (start + n) = (l.toToken start).shift n := by
  simp [toToken, Token.shift]
  omega

theorem decimal_add (start n : Nat) (cs : List Char) :
    decimal (start + n) cs = (decimal start cs).mapError (LexicalError.shift n) := by
  simp only [decimal]
  cases Decimal.read? (decimalRun cs) <;> rfl

theorem based_add (start n base : Nat) (marker cs : List Char) :
    based (start + n) base marker cs =
      (based start base marker cs).mapError (LexicalError.shift n) := by
  unfold based
  cases appendDigits base 0 cs <;> rfl

theorem number_add (start n : Nat) (cs : List Char) :
    number (start + n) cs = (number start cs).mapError (LexicalError.shift n) := by
  unfold number
  split
  · exact based_add start n 16 _ _
  · exact based_add start n 2 _ _
  · exact decimal_add start n cs

theorem first_add (start n : Nat) (c : Char) (cs : List Char) :
    first (start + n) c cs = (first start c cs).mapError (LexicalError.shift n) := by
  unfold first
  split
  · exact number_add start n _
  · split
    · rfl
    · split <;> rfl

theorem first_add_ok {start : Nat} {c : Char} {cs : List Char} {l : Lexeme}
    (h : first start c cs = .ok l) (n : Nat) : first (start + n) c cs = .ok l := by
  rw [first_add, h]
  rfl

theorem first_add_error {start : Nat} {c : Char} {cs : List Char} {e : LexicalError}
    (h : first start c cs = .error e) (n : Nat) :
    first (start + n) c cs = .error (e.shift n) := by
  rw [first_add, h]
  rfl

theorem first_moved {start : Nat} {c : Char} {cs : List Char} {l : Lexeme}
    (h : first start c cs = .ok l) (place : Nat) : first place c cs = .ok l := by
  cases hzero : first 0 c cs with
  | error e =>
    have hadd := first_add_error hzero start
    rw [Nat.zero_add, h] at hadd
    cases hadd
  | ok l' =>
    have hadd := first_add_ok hzero start
    have hplace := first_add_ok hzero place
    rw [Nat.zero_add] at hadd hplace
    rw [hplace, ← hadd, h]

end Lexeme

theorem Scan.chars_add (start n : Nat) (cs : List Char) :
    chars (start + n) cs = (chars start cs).shift n := by
  induction start, cs using chars_induction with
  | nil start => rfl
  | blank start c cs hc ih =>
    rw [Nat.add_right_comm] at ih
    rw [chars_of_blank _ hc, chars_of_blank _ hc, ih]
  | token start c cs l hc hl ih =>
    have hstart : start + n + 1 + (l.length - 1) = start + 1 + (l.length - 1) + n := by omega
    rw [chars_of_first hc hl, chars_of_first hc (Lexeme.first_add_ok hl n), hstart, ih]
    simp [Scan.shift, Lexeme.toToken_add]
  | fault start c cs e hc he =>
    rw [chars_of_fault hc he, chars_of_fault hc (Lexeme.first_add_error he n)]
    rfl

end Reckon
