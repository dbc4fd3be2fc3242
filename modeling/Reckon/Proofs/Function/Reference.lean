import Reckon.Function.Evaluation
/-!
Evaluation from left to right without a ceiling of calls, as a relation: of an endless recursion
there is no outcome. Besides the outcome it tells how deeply calls of user functions were nested
(`Evaluates`), and it tells which expressions come to a call that is nested deeper than a given
number, with the arguments of that call evaluated (`Exceeds`).
-/
set_option autoImplicit false

namespace Reckon

abbrev Bindings := List (String × Number)

def Meaning.NeedsOperand : Meaning → Prop
  | .unary _ | .binary _ | .choice _ => True
  | .constant _ | .structural => False

/-- A call of a user function that is not stopped before its arguments are evaluated. -/
structure FunctionTable.Calls (table : FunctionTable) (bindings : Bindings)
    (name : String) (operands : List Expr) (f : Formula) : Prop where
  unbound : Text.lookup? name bindings = none
  found : table.find? name = some f
  arity : operands.length = f.parameters.length

mutual

/-- The outcome, and the greatest number of nested calls that were entered. -/
inductive Evaluates (table : FunctionTable) :
    Bindings → Expr → Except Error Number → Nat → Prop where
  | constant {bindings : Bindings} {value : Number} :
      Evaluates table bindings (.constant value) (.ok value) 0
  | builtin {bindings : Bindings} {op : Operator} {operands : List Expr}
      {value : Number} :
      op.meaning = .constant value →
      Evaluates table bindings (.operator op operands) (.ok value) 0
  | structural {bindings : Bindings} {op : Operator} {operands : List Expr} :
      op.meaning = .structural →
      Evaluates table bindings (.operator op operands) (.error (.invalidUse op.name)) 0
  | operandFailed {bindings : Bindings} {op : Operator} {operands : List Expr}
      {err : Error} {n : Nat} :
      op.meaning.NeedsOperand → EvaluatesAt table bindings op operands 0 (.error err) n →
      Evaluates table bindings (.operator op operands) (.error err) n
  | unary {bindings : Bindings} {op : Operator} {operands : List Expr}
      {apply : Number → Number} {x : Number} {n : Nat} :
      op.meaning = .unary apply → EvaluatesAt table bindings op operands 0 (.ok x) n →
      Evaluates table bindings (.operator op operands) (.ok (apply x)) n
  | binary {bindings : Bindings} {op : Operator} {operands : List Expr}
      {apply : Number → Number → Number} {x : Number} {r : Except Error Number} {m n : Nat} :
      op.meaning = .binary apply → EvaluatesAt table bindings op operands 0 (.ok x) m →
      EvaluatesAt table bindings op operands 1 r n →
      Evaluates table bindings (.operator op operands) (r.map (apply x)) (max m n)
  | first {bindings : Bindings} {op : Operator} {operands : List Expr}
      {choose : Number → Nat} {x : Number} {n : Nat} :
      op.meaning = .choice choose → EvaluatesAt table bindings op operands 0 (.ok x) n →
      choose x = 0 → Evaluates table bindings (.operator op operands) (.ok x) n
  | chosen {bindings : Bindings} {op : Operator} {operands : List Expr}
      {choose : Number → Nat} {x : Number} {r : Except Error Number} {m n : Nat} :
      op.meaning = .choice choose → EvaluatesAt table bindings op operands 0 (.ok x) m →
      choose x ≠ 0 → EvaluatesAt table bindings op operands (choose x) r n →
      Evaluates table bindings (.operator op operands) r (max m n)
  | parameter {bindings : Bindings} {name : String} {value : Number} :
      Text.lookup? name bindings = some value →
      Evaluates table bindings (.call name []) (.ok value) 0
  | parameterCalled {bindings : Bindings} {name : String} {operands : List Expr}
      {value : Number} :
      Text.lookup? name bindings = some value → operands ≠ [] →
      Evaluates table bindings (.call name operands) (.error (.parameterCalled name)) 0
  | unknown {bindings : Bindings} {name : String} {operands : List Expr} :
      Text.lookup? name bindings = none → table.find? name = none →
      Evaluates table bindings (.call name operands) (.error (.unknownName name)) 0
  | wrongArity {bindings : Bindings} {name : String} {operands : List Expr}
      {f : Formula} :
      Text.lookup? name bindings = none → table.find? name = some f →
      operands.length ≠ f.parameters.length →
      Evaluates table bindings (.call name operands)
        (.error (.wrongArity name f.parameters.length operands.length)) 0
  | argumentFailed {bindings : Bindings} {name : String} {operands : List Expr}
      {f : Formula} {err : Error} {n : Nat} :
      table.Calls bindings name operands f → EvaluatesAll table bindings operands (.error err) n →
      Evaluates table bindings (.call name operands) (.error err) n
  | call {bindings : Bindings} {name : String} {operands : List Expr} {f : Formula}
      {values : List Number} {r : Except Error Number} {m n : Nat} :
      table.Calls bindings name operands f → EvaluatesAll table bindings operands (.ok values) m →
      Evaluates table (f.parameters.zip values) f.body r n →
      Evaluates table bindings (.call name operands) r (max m (n + 1))

inductive EvaluatesAt (table : FunctionTable) :
    Bindings → Operator → List Expr → Nat → Except Error Number → Nat → Prop where
  | present {bindings : Bindings} {op : Operator} {operands : List Expr} {i : Nat}
      {e : Expr} {r : Except Error Number} {n : Nat} :
      operands[i]? = some e → Evaluates table bindings e r n →
      EvaluatesAt table bindings op operands i r n
  | missing {bindings : Bindings} {op : Operator} {operands : List Expr} {i : Nat} :
      operands[i]? = none →
      EvaluatesAt table bindings op operands i (.error (.malformedNode op.name)) 0

inductive EvaluatesAll (table : FunctionTable) :
    Bindings → List Expr → Except Error (List Number) → Nat → Prop where
  | nil {bindings : Bindings} : EvaluatesAll table bindings [] (.ok []) 0
  | cons {bindings : Bindings} {e : Expr} {es : List Expr} {x : Number}
      {r : Except Error (List Number)} {m n : Nat} :
      Evaluates table bindings e (.ok x) m → EvaluatesAll table bindings es r n →
      EvaluatesAll table bindings (e :: es) (r.map (x :: ·)) (max m n)
  | failed {bindings : Bindings} {e : Expr} {es : List Expr} {err : Error}
      {n : Nat} :
      Evaluates table bindings e (.error err) n →
      EvaluatesAll table bindings (e :: es) (.error err) n

end

mutual

/-- Evaluation comes to a call inside of so many others, and evaluates its arguments. -/
inductive Exceeds (table : FunctionTable) : Nat → Bindings → Expr → Prop where
  | first {k : Nat} {bindings : Bindings} {op : Operator} {operands : List Expr}
      {e : Expr} :
      op.meaning.NeedsOperand → operands[0]? = some e → Exceeds table k bindings e →
      Exceeds table k bindings (.operator op operands)
  | second {k : Nat} {bindings : Bindings} {op : Operator} {operands : List Expr}
      {apply : Number → Number → Number} {x : Number} {n : Nat} {e : Expr} :
      op.meaning = .binary apply → EvaluatesAt table bindings op operands 0 (.ok x) n →
      operands[1]? = some e → Exceeds table k bindings e →
      Exceeds table k bindings (.operator op operands)
  | chosen {k : Nat} {bindings : Bindings} {op : Operator} {operands : List Expr}
      {choose : Number → Nat} {x : Number} {n : Nat} {e : Expr} :
      op.meaning = .choice choose → EvaluatesAt table bindings op operands 0 (.ok x) n →
      choose x ≠ 0 → operands[choose x]? = some e → Exceeds table k bindings e →
      Exceeds table k bindings (.operator op operands)
  | argument {k : Nat} {bindings : Bindings} {name : String} {operands : List Expr}
      {f : Formula} :
      table.Calls bindings name operands f → ExceedsAll table k bindings operands →
      Exceeds table k bindings (.call name operands)
  | body {k : Nat} {bindings : Bindings} {name : String} {operands : List Expr}
      {f : Formula} {values : List Number} {n : Nat} :
      table.Calls bindings name operands f → EvaluatesAll table bindings operands (.ok values) n →
      Exceeds table k (f.parameters.zip values) f.body →
      Exceeds table (k + 1) bindings (.call name operands)
  | here {bindings : Bindings} {name : String} {operands : List Expr} {f : Formula}
      {values : List Number} {n : Nat} :
      table.Calls bindings name operands f → EvaluatesAll table bindings operands (.ok values) n →
      Exceeds table 0 bindings (.call name operands)

inductive ExceedsAll (table : FunctionTable) :
    Nat → Bindings → List Expr → Prop where
  | head {k : Nat} {bindings : Bindings} {e : Expr} {es : List Expr} :
      Exceeds table k bindings e → ExceedsAll table k bindings (e :: es)
  | tail {k : Nat} {bindings : Bindings} {e : Expr} {es : List Expr} {x : Number}
      {n : Nat} :
      Evaluates table bindings e (.ok x) n → ExceedsAll table k bindings es →
      ExceedsAll table k bindings (e :: es)

end

end Reckon
