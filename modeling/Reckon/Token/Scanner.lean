import Reckon.Token.Basic
import Reckon.Operator.Registry
import Reckon.Decimal.Basic
import Reckon.Text.Numeral
import Reckon.Error
/-!
Cutting a line into tokens. At each character that is not blank a lexeme starts, and how far it
reaches is decided by that character: a numeral, a word, a quoted text, the longest operator, or
the character alone. The main statements are `scan_cons`, which gives the tokens of a line by
its first one, `chars_induction`, the induction that goes with it, and `scan_onto`, by which
tokens found before do not matter.
-/
set_option autoImplicit false

namespace Reckon

structure Lexeme where
  kind : TokenKind
  text : List Char
  length : Nat

namespace Lexeme

def isBlank (c : Char) : Bool := c.toNat == 32 || (decide (9 ≤ c.toNat) && decide (c.toNat ≤ 13))

def startsNumber (c : Char) : Bool := c.isDigit || c == '.'

def startsWord (c : Char) : Bool := c == '_' || isLetter c

def continuesWord (c : Char) : Bool := c == '_' || isLetter c || isNumeral c

def isQuote (c : Char) : Bool := c == '\x27' || c == '\x22'

/-- Digits and points in any order, and letters `e`, each with a minus sign directly after it
or without one. -/
def decimalRun : List Char → List Char
  | [] => []
  | 'e' :: '-' :: cs => 'e' :: '-' :: decimalRun cs
  | c :: cs => if startsNumber c || c == 'e' then c :: decimalRun cs else []

/-- The whole run has to be a numeral; it is never cut in two. -/
def decimal (start : Nat) (cs : List Char) : Except LexicalError Lexeme :=
  let run := decimalRun cs
  match Decimal.read? run with
  | some d => .ok ⟨.number d.nearest, run, run.length⟩
  | none => .error (.invalidConstant (String.ofList run) start)

def digitValue? (base : Nat) (c : Char) : Option Nat :=
  let value :=
    if c.isDigit then c.toNat - 48
    else if 97 ≤ c.toNat ∧ c.toNat ≤ 102 then c.toNat - 87
    else if 65 ≤ c.toNat ∧ c.toNat ≤ 70 then c.toNat - 55
    else base
  if value < base then some value else none

/-- Appends the digits of a base at the start of a text to a value. The result is the new value
and the digits, or, if a value reaches `2 ^ 32`, the digits up to the one with which it does. -/
def appendDigits (base : Nat) : Nat → List Char → Except (List Char) (Nat × List Char)
  | value, [] => .ok (value, [])
  | value, c :: cs =>
    match digitValue? base c with
    | none => .ok (value, [])
    | some digit =>
      if pow2 32 ≤ value * base + digit then .error [c]
      else
        match appendDigits base (value * base + digit) cs with
        | .ok (result, digits) => .ok (result, c :: digits)
        | .error digits => .error (c :: digits)

def based (start base : Nat) (marker cs : List Char) : Except LexicalError Lexeme :=
  match appendDigits base 0 cs with
  | .ok (value, digits) =>
    .ok ⟨.number (Number.ofInt (value : Int)), marker ++ digits, marker.length + digits.length⟩
  | .error digits => .error (.overflow base (String.ofList (marker ++ digits)) start)

def number (start : Nat) : List Char → Except LexicalError Lexeme
  | '0' :: 'x' :: cs => based start 16 ['0', 'x'] cs
  | '0' :: 'b' :: cs => based start 2 ['0', 'b'] cs
  | cs => decimal start cs

def word (c : Char) (cs : List Char) : Lexeme :=
  let chars := c :: cs.takeWhile continuesWord
  ⟨.text, chars, chars.length⟩

def quoted (quote : Char) (cs : List Char) : Lexeme :=
  let chars := cs.takeWhile fun c => c != quote
  ⟨.text, chars, if chars.length = cs.length then chars.length + 1 else chars.length + 2⟩

/-- The longest operator, or else the character alone. -/
def sign (c : Char) (cs : List Char) : Lexeme :=
  match Operator.longest? (c :: cs) with
  | some op => ⟨.operator op, op.name.toList, op.name.length⟩
  | none => ⟨.text, [c], 1⟩

def first (start : Nat) (c : Char) (cs : List Char) : Except LexicalError Lexeme :=
  if startsNumber c then number start (c :: cs)
  else if startsWord c then .ok (word c cs)
  else if isQuote c then .ok (quoted c cs)
  else .ok (sign c cs)

def toToken (l : Lexeme) (start : Nat) : Token :=
  ⟨l.kind, String.ofList l.text, start, start + l.length⟩

end Lexeme

structure Scan where
  tokens : List Token
  failure : Option LexicalError

namespace Scan

/-- Continues a scan. The tokens found so far come last first; `start` is the position of the
first character, and `skip` tells how many characters still belong to the last token. -/
def onto (found : List Token) : Nat → Nat → List Char → Scan
  | _, _, [] => ⟨found.reverse, none⟩
  | start, skip + 1, _ :: cs => onto found (start + 1) skip cs
  | start, 0, c :: cs =>
    if Lexeme.isBlank c then onto found (start + 1) 0 cs
    else
      match Lexeme.first start c cs with
      | .ok l => onto (l.toToken start :: found) (start + 1) (l.length - 1) cs
      | .error e => ⟨found.reverse, some e⟩

def chars (start : Nat) (cs : List Char) : Scan := onto [] start 0 cs

def line (source : String) : Scan := chars 0 source.toList

theorem onto_skip (found : List Token) (start skip : Nat) (cs : List Char) :
    onto found start skip cs = onto found (start + skip) 0 (cs.drop skip) := by
  induction skip generalizing start cs with
  | zero => rfl
  | succ skip ih =>
    cases cs with
    | nil => simp [onto]
    | cons c cs =>
      simp only [onto, List.drop_succ_cons]
      rw [ih (start + 1) cs]
      congr 1
      omega

theorem scan_onto (found : List Token) (start skip : Nat) (cs : List Char) :
    onto found start skip cs =
      ⟨found.reverse ++ (onto [] start skip cs).tokens, (onto [] start skip cs).failure⟩ := by
  induction cs generalizing found start skip with
  | nil => simp [onto]
  | cons c cs ih =>
    cases skip with
    | succ skip =>
      simp only [onto]
      exact ih found (start + 1) skip
    | zero =>
      simp only [onto]
      split
      · exact ih found (start + 1) 0
      · split
        · rename_i l _
          rw [ih (l.toToken start :: found), ih [l.toToken start]]
          simp
        · simp

theorem scan_nil (start : Nat) : chars start [] = ⟨[], none⟩ := rfl

theorem scan_cons (start : Nat) (c : Char) (cs : List Char) :
    chars start (c :: cs) =
      if Lexeme.isBlank c then chars (start + 1) cs
      else
        match Lexeme.first start c cs with
        | .ok l =>
          let rest := chars (start + 1 + (l.length - 1)) (cs.drop (l.length - 1))
          ⟨l.toToken start :: rest.tokens, rest.failure⟩
        | .error e => ⟨[], some e⟩ := by
  unfold chars
  conv => lhs; unfold onto
  split
  · rfl
  · split
    · rw [onto_skip, scan_onto]
      simp
    · rfl

variable {start : Nat} {c : Char} {cs : List Char}

theorem chars_of_blank (start : Nat) (hc : Lexeme.isBlank c = true) (cs : List Char) :
    chars start (c :: cs) = chars (start + 1) cs := by
  rw [scan_cons, if_pos hc]

theorem chars_of_first {l : Lexeme} (hc : Lexeme.isBlank c = false)
    (hl : Lexeme.first start c cs = .ok l) :
    chars start (c :: cs) =
      ⟨l.toToken start :: (chars (start + 1 + (l.length - 1)) (cs.drop (l.length - 1))).tokens,
        (chars (start + 1 + (l.length - 1)) (cs.drop (l.length - 1))).failure⟩ := by
  rw [scan_cons, hc, hl]
  rfl

theorem chars_of_fault {e : LexicalError} (hc : Lexeme.isBlank c = false)
    (he : Lexeme.first start c cs = .error e) : chars start (c :: cs) = ⟨[], some e⟩ := by
  rw [scan_cons, hc, he]
  rfl

/-- What a scan shows of a line, one blank or one token at a time. -/
theorem chars_induction {motive : Nat → List Char → Prop}
    (nil : ∀ start, motive start [])
    (blank : ∀ start c cs, Lexeme.isBlank c = true → motive (start + 1) cs →
      motive start (c :: cs))
    (token : ∀ start c cs l, Lexeme.isBlank c = false → Lexeme.first start c cs = .ok l →
      motive (start + 1 + (l.length - 1)) (cs.drop (l.length - 1)) → motive start (c :: cs))
    (fault : ∀ start c cs e, Lexeme.isBlank c = false → Lexeme.first start c cs = .error e →
      motive start (c :: cs))
    (start : Nat) (cs : List Char) : motive start cs := by
  -- A lexeme takes its first character at least, so the rest of the line is shorter.
  induction hlen : cs.length using Nat.strongRecOn generalizing start cs with
  | ind len ih =>
    cases cs with
    | nil => exact nil start
    | cons c cs =>
      simp only [List.length_cons] at hlen
      cases hblank : Lexeme.isBlank c with
      | true => exact blank start c cs hblank (ih cs.length (by omega) _ _ rfl)
      | false =>
        cases hl : Lexeme.first start c cs with
        | error e => exact fault start c cs e hblank hl
        | ok l =>
          refine token start c cs l hblank hl (ih (cs.drop (l.length - 1)).length ?_ _ _ rfl)
          rw [List.length_drop]
          omega

end Scan

end Reckon
