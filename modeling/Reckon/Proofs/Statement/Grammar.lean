import Reckon.Statement.Reader
/-!
The grammar of statements, on its own and without a reader: which token sequences are phrases
of which category, and the expression that each phrase means. Argument lists may be nested as
deeply as a limit allows; with the limit `none` that part of every rule holds by itself.
-/
set_option autoImplicit false

namespace Reckon

inductive Category where
  | assign | condition | logicalOr | logicalAnd | bitOr | bitXor | bitAnd | equality | order
  | shift | addition | multiplication | unary | power | atom
deriving DecidableEq

namespace Category

def tighter? : Category → Option Category
  | .assign => some .condition
  | .condition => some .logicalOr
  | .logicalOr => some .logicalAnd
  | .logicalAnd => some .bitOr
  | .bitOr => some .bitXor
  | .bitXor => some .bitAnd
  | .bitAnd => some .equality
  | .equality => some .order
  | .order => some .shift
  | .shift => some .addition
  | .addition => some .multiplication
  | .multiplication => some .unary
  | .unary => some .power
  | .power => some .atom
  | .atom => none

end Category

structure Join where
  sign : Operator
  whole : Category
  left : Category
  right : Category
deriving DecidableEq

namespace Join

def chain (whole tighter : Category) (signs : List Operator) : List Join :=
  signs.map fun sign => ⟨sign, whole, whole, tighter⟩

def all : List Join :=
  [⟨.assign, .assign, .condition, .assign⟩,
   ⟨.question, .condition, .logicalOr, .condition⟩,
   ⟨.colon, .condition, .logicalOr, .condition⟩] ++
  chain .logicalOr .logicalAnd [.logicalOr] ++
  chain .logicalAnd .bitOr [.logicalAnd] ++
  chain .bitOr .bitXor [.bitOr] ++
  chain .bitXor .bitAnd [.bitXor] ++
  chain .bitAnd .equality [.bitAnd] ++
  chain .equality .order [.equal, .notEqual] ++
  chain .order .shift [.less, .greater, .lessEqual, .greaterEqual] ++
  chain .shift .addition [.shiftLeft, .shiftRight, .shiftRightLogical] ++
  chain .addition .multiplication [.add, .subtract] ++
  chain .multiplication .unary [.multiply, .divide, .remainder] ++
  [⟨.power, .power, .atom, .unary⟩]

end Join

def leadingSigns : List (Operator × Operator) :=
  [(.subtract, .negate), (.logicalNot, .logicalNot), (.bitNot, .bitNot)]

namespace Token

/-- Any text but a comma, which always separates. -/
def IsName (t : Token) : Prop := t.kind = .text ∧ t.text ≠ ","

def IsSeparator (t : Token) : Prop := t.kind = .text ∧ t.text = ","

end Token

/-- What an operator makes of the phrases beside it. A question mark takes over both branches
of a colon node on its right. -/
inductive Joined : Operator → Expr → Expr → Expr → Prop where
  | conditional {a : Expr} {branches : List Expr} :
      Joined .question a (.operator .colon branches) (.operator .conditional (a :: branches))
  | plain {op : Operator} {a b : Expr} :
      (op = .question → ∀ branches, b ≠ .operator .colon branches) →
      Joined op a b (.operator op [a, b])

/-- What a name means with its arguments: the entry of the registry of that name, which takes
exactly its own number of them, and otherwise a function of the user. -/
inductive Named : String → List Expr → Expr → Prop where
  | builtIn {op : Operator} {arguments : List Expr} :
      op ∈ Operator.table → arguments.length = op.arity →
      Named op.name arguments (.operator op arguments)
  | user {name : String} {arguments : List Expr} :
      (∀ op ∈ Operator.table, op.name ≠ name) → Named name arguments (.call name arguments)

structure LeadingArgument where
  phrase : List Token
  comma : Token
  value : Expr

def LeadingArgument.tokens (a : LeadingArgument) : List Token := a.phrase ++ [a.comma]

/-- The tokens are a phrase of the category that means the expression. The number tells how many
argument lists stand around the phrase. -/
inductive Derives (limit : Limit) : Nat → Category → List Token → Expr → Prop where
  | looser {d : Nat} {c c' : Category} {s : List Token} {e : Expr} :
      c.tighter? = some c' → Derives limit d c' s e → Derives limit d c s e
  | join {d : Nat} {j : Join} {t : Token} {l r : List Token} {a b e : Expr} :
      j ∈ Join.all → t.kind = .operator j.sign → Derives limit d j.left l a →
      Derives limit d j.right r b → Joined j.sign a b e → Derives limit d j.whole (l ++ t :: r) e
  | signed {d : Nat} {sign op : Operator} {t : Token} {s : List Token} {e : Expr} :
      (sign, op) ∈ leadingSigns → t.kind = .operator sign → Derives limit d .unary s e →
      Derives limit d .unary (t :: s) (.operator op [e])
  | number {d : Nat} {t : Token} {value : Number} :
      t.kind = .number value → Derives limit d .atom [t] (.constant value)
  | name {d : Nat} {t : Token} {e : Expr} :
      t.IsName → Named t.text [] e → Derives limit d .atom [t] e
  | bareCall {d : Nat} {t o c : Token} {e : Expr} :
      t.IsName → o.kind = .operator .openParen → c.kind = .operator .closeParen →
      Named t.text [] e → Derives limit d .atom [t, o, c] e
  | call {d : Nat} {t o c : Token} {initial : List LeadingArgument} {s : List Token}
      {last e : Expr} :
      t.IsName → o.kind = .operator .openParen → c.kind = .operator .closeParen →
      limit.allows (d + 1) = true → (∀ a ∈ initial, a.comma.IsSeparator) →
      (∀ a ∈ initial, Derives limit (d + 1) .assign a.phrase a.value) →
      Derives limit (d + 1) .assign s last →
      Named t.text (initial.map LeadingArgument.value ++ [last]) e →
      Derives limit d .atom (t :: o :: (initial.flatMap LeadingArgument.tokens ++ (s ++ [c]))) e
  | group {d : Nat} {o c : Token} {s : List Token} {e : Expr} :
      o.kind = .operator .openParen → c.kind = .operator .closeParen →
      Derives limit d .assign s e → Derives limit d .atom (o :: (s ++ [c])) e

/-- How a statement ends, and what is left in the queue then. Only a comma is taken. -/
inductive StatementEnd (nested : Bool) : TokenQueue → TokenQueue → Prop where
  | line : StatementEnd nested ⟨[], none⟩ ⟨[], none⟩
  | separator {t : Token} {ts : List Token} {failure : Option LexicalError} :
      t.IsSeparator → StatementEnd nested ⟨t :: ts, failure⟩ ⟨ts, failure⟩
  | closeParen {t : Token} {ts : List Token} {failure : Option LexicalError} :
      nested = true → t.kind = .operator .closeParen →
      StatementEnd nested ⟨t :: ts, failure⟩ ⟨t :: ts, failure⟩

theorem joined_iff {op : Operator} {a b e : Expr} : Joined op a b e ↔ Expr.ofInfix op a b = e := by
  constructor
  · intro h
    cases h with
    | conditional => rfl
    | plain h =>
      unfold Expr.ofInfix
      split
      · rename_i branches
        exact absurd rfl (h rfl branches)
      · rfl
  · rintro rfl
    unfold Expr.ofInfix
    split
    · exact .conditional
    · rename_i h
      exact .plain fun hop branches hb => h branches hop hb

theorem named_iff {name : String} {arguments : List Expr} {e : Expr} :
    Named name arguments e ↔ Expr.ofName name arguments = .ok e := by
  constructor
  · intro h
    cases h with
    | @builtIn op _ hop hlen => simp [Expr.ofName, Operator.find?_name op hop, hlen]
    | user h =>
      have hnone : Operator.find? name = none := by
        simpa [Operator.find?, List.find?_eq_none] using h
      simp [Expr.ofName, hnone]
  · intro h
    unfold Expr.ofName at h
    split at h
    · rename_i hnone
      cases h
      exact .user (by simpa [Operator.find?, List.find?_eq_none] using hnone)
    · rename_i op hfind
      split at h
      · rename_i hlen
        cases h
        have hname := Operator.name_of_find? hfind
        subst hname
        exact .builtIn (List.mem_of_find?_eq_some hfind) hlen
      · cases h

end Reckon
