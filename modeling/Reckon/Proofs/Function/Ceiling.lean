import Reckon.Proofs.Function.Evaluation
import Reckon.Proofs.Function.Reference
/-!
The ceiling of calls is exact. What evaluates with calls nested at most as deeply as the ceiling
allows has that outcome, and everything else ends at the ceiling: `Expr.eval` follows the
relations of the reference evaluation (`Evaluates.eval`, `Exceeds.eval`), and one of them holds of
every expression (`decided`).
-/
set_option autoImplicit false

namespace Reckon

/-- An outcome that is reached if calls nested so deeply are allowed. -/
def withinCeiling {α : Type} (k n : Nat) (r : Except Error α) : Except Error α :=
  if n ≤ k then r else .error .excessiveRecursion

section Ceiling

variable {α β : Type} {k m n : Nat} {r : Except Error α}

theorem withinCeiling_of_le (h : n ≤ k) (r : Except Error α) : withinCeiling k n r = r := by
  simp [withinCeiling, h]

theorem withinCeiling_of_lt (h : k < n) (r : Except Error α) :
    withinCeiling k n r = .error .excessiveRecursion := by
  simp [withinCeiling, Nat.not_le.2 h]

theorem withinCeiling_zero (k : Nat) (r : Except Error α) : withinCeiling k 0 r = r :=
  withinCeiling_of_le (Nat.zero_le k) r

theorem withinCeiling_max (h : m ≤ k) (n : Nat) (r : Except Error α) :
    withinCeiling k (max m n) r = withinCeiling k n r := by
  have hmax : max m n ≤ k ↔ n ≤ k := by omega
  simp only [withinCeiling, hmax]

theorem withinCeiling_succ (k n : Nat) (r : Except Error α) :
    withinCeiling (k + 1) (n + 1) r = withinCeiling k n r := by
  simp [withinCeiling]

theorem withinCeiling_map (f : α → β) :
    (withinCeiling k n r).map f = withinCeiling k n (r.map f) := by
  by_cases h : n ≤ k
  · rw [withinCeiling_of_le h, withinCeiling_of_le h]
  · rw [withinCeiling_of_lt (Nat.lt_of_not_le h), withinCeiling_of_lt (Nat.lt_of_not_le h)]
    rfl

theorem withinCeiling_error (k n : Nat) (err : Error) :
    ∃ err', ∀ α : Type, withinCeiling k n (.error err : Except Error α) = .error err' := by
  by_cases hn : n ≤ k
  · exact ⟨err, fun _ => withinCeiling_of_le hn _⟩
  · exact ⟨.excessiveRecursion, fun _ => withinCeiling_of_lt (Nat.lt_of_not_le hn) _⟩

theorem withinCeiling_excessive (k n : Nat) :
    withinCeiling k n (.error .excessiveRecursion : Except Error α) =
      .error .excessiveRecursion := by
  simp [withinCeiling]

end Ceiling

def FunctionTable.scope (table : FunctionTable) (k : Nat) (bindings : Bindings) : Scope :=
  ⟨table, bindings, none, table.call none k⟩

namespace Expr

variable {table : FunctionTable} {k depth m n : Nat} {bindings : Bindings} {op : Operator}
  {name : String} {operands es : List Expr} {e : Expr} {f : Formula} {x : Number}
  {r : Except Error Number} {rs : Except Error (List Number)} {err : Error}

theorem allows_scope (table : FunctionTable) (k : Nat) (bindings : Bindings) (depth : Nat) :
    (table.scope k bindings).limit.allows depth = true := rfl

theorem eval_unary {apply : Number → Number} (hmeaning : op.meaning = .unary apply)
    (h : evalAt (table.scope k bindings) (depth + 1) op 0 operands = .ok x) :
    eval (table.scope k bindings) depth (.operator op operands) = .ok (apply x) := by
  simp [eval, allows_scope, hmeaning, h]

theorem eval_binary {apply : Number → Number → Number} (hmeaning : op.meaning = .binary apply)
    (h : evalAt (table.scope k bindings) (depth + 1) op 0 operands = .ok x) :
    eval (table.scope k bindings) depth (.operator op operands) =
      (evalAt (table.scope k bindings) (depth + 1) op 1 operands).map (apply x) := by
  cases h' : evalAt (table.scope k bindings) (depth + 1) op 1 operands <;>
    simp [eval, allows_scope, hmeaning, h, h', Except.map]

theorem eval_choice {choose : Number → Nat} (hmeaning : op.meaning = .choice choose)
    (h : evalAt (table.scope k bindings) (depth + 1) op 0 operands = .ok x) :
    eval (table.scope k bindings) depth (.operator op operands) =
      if choose x = 0 then .ok x
      else evalAt (table.scope k bindings) (depth + 1) op (choose x) operands := by
  simp [eval, allows_scope, hmeaning, h]

theorem eval_of_operand (hneeds : op.meaning.NeedsOperand)
    (h : evalAt (table.scope k bindings) (depth + 1) op 0 operands = .error err) :
    eval (table.scope k bindings) depth (.operator op operands) = .error err := by
  cases hmeaning : op.meaning with
  | unary apply => simp [eval, allows_scope, hmeaning, h]
  | binary apply => simp [eval, allows_scope, hmeaning, h]
  | choice choose => simp [eval, allows_scope, hmeaning, h]
  | constant value =>
    rw [hmeaning] at hneeds
    cases hneeds
  | structural =>
    rw [hmeaning] at hneeds
    cases hneeds

theorem eval_call (h : table.Calls bindings name operands f) (k depth : Nat) :
    eval (table.scope k bindings) depth (.call name operands) =
      match evalAll (table.scope k bindings) (depth + 2) operands with
      | .ok values => table.call none k f values (depth + 1)
      | .error err => .error err := by
  have hunbound : Text.lookup? name (table.scope k bindings).bindings = none := h.unbound
  have hfound : (table.scope k bindings).table.find? name = some f := h.found
  simp only [eval, hunbound, hfound, h.arity, if_true]
  rfl

theorem eval_after_operand (hneeds : op.meaning.NeedsOperand)
    (hfirst : evalAt (table.scope k bindings) (depth + 1) op 0 operands =
      withinCeiling k m (.ok x))
    (hrest : evalAt (table.scope k bindings) (depth + 1) op 0 operands = .ok x →
      eval (table.scope k bindings) depth (.operator op operands) = withinCeiling k n r) :
    eval (table.scope k bindings) depth (.operator op operands) =
      withinCeiling k (max m n) r := by
  by_cases hm : m ≤ k
  · rw [withinCeiling_of_le hm] at hfirst
    rw [withinCeiling_max hm]
    exact hrest hfirst
  · rw [withinCeiling_of_lt (Nat.lt_of_not_le hm)] at hfirst
    rw [withinCeiling_of_lt (by omega)]
    exact eval_of_operand hneeds hfirst

theorem eval_after_arguments {values : List Number} (hcalls : table.Calls bindings name operands f)
    (harguments : evalAll (table.scope k bindings) (depth + 2) operands =
      withinCeiling k m (.ok values))
    (hrest : table.call none k f values (depth + 1) = withinCeiling k n r) :
    eval (table.scope k bindings) depth (.call name operands) = withinCeiling k (max m n) r := by
  rw [eval_call hcalls]
  by_cases hm : m ≤ k
  · rw [withinCeiling_of_le hm] at harguments
    rw [withinCeiling_max hm, harguments]
    exact hrest
  · rw [withinCeiling_of_lt (Nat.lt_of_not_le hm)] at harguments
    rw [withinCeiling_of_lt (by omega), harguments]

theorem evalAll_cons
    (hhead : eval (table.scope k bindings) depth e = withinCeiling k m (.ok x))
    (htail : evalAll (table.scope k bindings) depth es = withinCeiling k n rs) :
    evalAll (table.scope k bindings) depth (e :: es) =
      withinCeiling k (max m n) (rs.map (x :: ·)) := by
  by_cases hm : m ≤ k
  · rw [withinCeiling_of_le hm] at hhead
    rw [withinCeiling_max hm, ← withinCeiling_map, ← htail]
    cases h : evalAll (table.scope k bindings) depth es <;> simp [evalAll, hhead, h, Except.map]
  · rw [withinCeiling_of_lt (Nat.lt_of_not_le hm)] at hhead
    rw [withinCeiling_of_lt (by omega)]
    simp [evalAll, hhead]

theorem evalAll_of_head (h : eval (table.scope k bindings) depth e = .error err) :
    evalAll (table.scope k bindings) depth (e :: es) = .error err := by
  simp [evalAll, h]

end Expr

-- The inductions are on the derivation, of which the evaluation of a body is a part.

mutual

theorem Evaluates.eval {table : FunctionTable} {bindings : Bindings} {e : Expr}
    {r : Except Error Number} {n : Nat} (h : Evaluates table bindings e r n) (k depth : Nat) :
    Expr.eval (table.scope k bindings) depth e = withinCeiling k n r := by
  match h with
  | .constant => simp [Expr.eval, Expr.allows_scope, withinCeiling]
  | .builtin hmeaning => simp [Expr.eval, Expr.allows_scope, withinCeiling, hmeaning]
  | .structural hmeaning => simp [Expr.eval, Expr.allows_scope, withinCeiling, hmeaning]
  | @Evaluates.operandFailed _ _ _ _ err n hneeds hat =>
    have hfirst := EvaluatesAt.eval hat k (depth + 1)
    obtain ⟨err', herr⟩ := withinCeiling_error k n err
    rw [herr] at hfirst ⊢
    exact Expr.eval_of_operand hneeds hfirst
  | @Evaluates.unary _ _ op operands apply x n hmeaning hat =>
    have hneeds : op.meaning.NeedsOperand := by simp [hmeaning, Meaning.NeedsOperand]
    have hnode := Expr.eval_after_operand (n := 0) (r := .ok (apply x)) hneeds
      (EvaluatesAt.eval hat k (depth + 1))
      (fun hx => (Expr.eval_unary hmeaning hx).trans (withinCeiling_zero k _).symm)
    rwa [Nat.max_zero] at hnode
  | @Evaluates.binary _ _ op operands apply x r m n hmeaning hat hat' =>
    have hneeds : op.meaning.NeedsOperand := by simp [hmeaning, Meaning.NeedsOperand]
    refine Expr.eval_after_operand hneeds (EvaluatesAt.eval hat k (depth + 1)) fun hx => ?_
    rw [Expr.eval_binary hmeaning hx, EvaluatesAt.eval hat' k (depth + 1), withinCeiling_map]
  | @Evaluates.first _ _ op operands choose x n hmeaning hat hchoose =>
    have hneeds : op.meaning.NeedsOperand := by simp [hmeaning, Meaning.NeedsOperand]
    have hnode := Expr.eval_after_operand (n := 0) (r := .ok x) hneeds
      (EvaluatesAt.eval hat k (depth + 1)) (fun hx => by
        rw [Expr.eval_choice hmeaning hx, if_pos hchoose, withinCeiling_zero])
    rwa [Nat.max_zero] at hnode
  | @Evaluates.chosen _ _ op operands choose x r m n hmeaning hat hchoose hat' =>
    have hneeds : op.meaning.NeedsOperand := by simp [hmeaning, Meaning.NeedsOperand]
    refine Expr.eval_after_operand hneeds (EvaluatesAt.eval hat k (depth + 1)) fun hx => ?_
    rw [Expr.eval_choice hmeaning hx, if_neg hchoose]
    exact EvaluatesAt.eval hat' k (depth + 1)
  | .parameter hbound =>
    have hbound' : Text.lookup? _ (table.scope k bindings).bindings = some _ := hbound
    simp [Expr.eval, Expr.allows_scope, withinCeiling, hbound']
  | .parameterCalled hbound hne =>
    have hbound' : Text.lookup? _ (table.scope k bindings).bindings = some _ := hbound
    simp [Expr.eval, Expr.allows_scope, withinCeiling, hbound', hne]
  | .unknown hunbound hunknown =>
    have hunbound' : Text.lookup? _ (table.scope k bindings).bindings = none := hunbound
    have hunknown' : (table.scope k bindings).table.find? _ = none := hunknown
    simp [Expr.eval, Expr.allows_scope, withinCeiling, hunbound', hunknown']
  | .wrongArity hunbound hfound hne =>
    have hunbound' : Text.lookup? _ (table.scope k bindings).bindings = none := hunbound
    have hfound' : (table.scope k bindings).table.find? _ = some _ := hfound
    simp [Expr.eval, Expr.allows_scope, withinCeiling, hunbound', hfound', hne]
  | @Evaluates.argumentFailed _ _ _ _ _ err n hcalls hall =>
    have harguments := EvaluatesAll.eval hall k (depth + 2)
    obtain ⟨err', herr⟩ := withinCeiling_error k n err
    rw [herr] at harguments ⊢
    rw [Expr.eval_call hcalls, harguments]
  | .call hcalls hall hbody =>
    refine Expr.eval_after_arguments hcalls (EvaluatesAll.eval hall k (depth + 2)) ?_
    -- The body may use one call less; with none left it is not entered.
    cases k with
    | zero =>
      rw [withinCeiling_of_lt (Nat.succ_pos _)]
      rfl
    | succ k =>
      rw [withinCeiling_succ]
      exact Evaluates.eval hbody k (depth + 1)

theorem EvaluatesAt.eval {table : FunctionTable} {bindings : Bindings}
    {op : Operator} {operands : List Expr} {i : Nat} {r : Except Error Number} {n : Nat}
    (h : EvaluatesAt table bindings op operands i r n) (k depth : Nat) :
    Expr.evalAt (table.scope k bindings) depth op i operands = withinCeiling k n r := by
  match h with
  | .present he heval =>
    have hoperand := Evaluates.eval heval k depth
    exact (Expr.evalAt_of_getElem? op he).trans hoperand
  | .missing he => simp [Expr.evalAt_eq, he, withinCeiling]

theorem EvaluatesAll.eval {table : FunctionTable} {bindings : Bindings}
    {operands : List Expr} {r : Except Error (List Number)} {n : Nat}
    (h : EvaluatesAll table bindings operands r n) (k depth : Nat) :
    Expr.evalAll (table.scope k bindings) depth operands = withinCeiling k n r := by
  match h with
  | .nil => simp [Expr.evalAll, withinCeiling]
  | .cons heval hall =>
    exact Expr.evalAll_cons (Evaluates.eval heval k depth) (EvaluatesAll.eval hall k depth)
  | @EvaluatesAll.failed _ _ _ _ err n heval =>
    have hhead := Evaluates.eval heval k depth
    obtain ⟨err', herr⟩ := withinCeiling_error k n err
    rw [herr] at hhead ⊢
    exact Expr.evalAll_of_head hhead

end

mutual

theorem Evaluates.ne_excessive {table : FunctionTable} {bindings : Bindings}
    {e : Expr} {r : Except Error Number} {n : Nat} (h : Evaluates table bindings e r n) :
    r ≠ .error .excessiveRecursion := by
  match h with
  | .constant => simp
  | .builtin _ => simp
  | .structural _ => simp
  | .operandFailed _ hat => exact EvaluatesAt.ne_excessive hat
  | .unary _ _ => simp
  | @Evaluates.binary _ _ _ _ apply x r m n _ _ hat' =>
    have hr := EvaluatesAt.ne_excessive hat'
    cases r with
    | ok y => simp [Except.map]
    | error err => simpa [Except.map] using hr
  | .first _ _ _ => simp
  | .chosen _ _ _ hat' => exact EvaluatesAt.ne_excessive hat'
  | .parameter _ => simp
  | .parameterCalled _ _ => simp
  | .unknown _ _ => simp
  | .wrongArity _ _ _ => simp
  | .argumentFailed _ hall =>
    intro heq
    exact EvaluatesAll.ne_excessive hall (by simpa using heq)
  | .call _ _ hbody => exact Evaluates.ne_excessive hbody

theorem EvaluatesAt.ne_excessive {table : FunctionTable} {bindings : Bindings}
    {op : Operator} {operands : List Expr} {i : Nat} {r : Except Error Number} {n : Nat}
    (h : EvaluatesAt table bindings op operands i r n) : r ≠ .error .excessiveRecursion := by
  match h with
  | .present _ heval => exact Evaluates.ne_excessive heval
  | .missing _ => simp

theorem EvaluatesAll.ne_excessive {table : FunctionTable} {bindings : Bindings}
    {operands : List Expr} {r : Except Error (List Number)} {n : Nat}
    (h : EvaluatesAll table bindings operands r n) : r ≠ .error .excessiveRecursion := by
  match h with
  | .nil => simp
  | @EvaluatesAll.cons _ _ _ _ x r m n _ hall =>
    have hr := EvaluatesAll.ne_excessive hall
    cases r with
    | ok xs => simp [Except.map]
    | error err => simpa [Except.map] using hr
  | .failed heval =>
    intro heq
    exact Evaluates.ne_excessive heval (by simpa using heq)

end

theorem Evaluates.unique {table : FunctionTable} {bindings : Bindings} {e : Expr}
    {r r' : Except Error Number} {m n : Nat} (h : Evaluates table bindings e r m)
    (h' : Evaluates table bindings e r' n) : r = r' ∧ m = n := by
  have hle : ∀ {r r' : Except Error Number} {m n : Nat}, Evaluates table bindings e r m →
      Evaluates table bindings e r' n → m ≤ n := by
    intro r r' m n h h'
    refine Nat.le_of_not_lt fun hlt => h'.ne_excessive ?_
    have heval := h.eval n 0
    rw [withinCeiling_of_lt hlt, h'.eval n 0, withinCeiling_of_le (Nat.le_refl n)] at heval
    exact heval
  have hmn : m = n := Nat.le_antisymm (hle h h') (hle h' h)
  subst hmn
  have heval := h.eval m 0
  rw [h'.eval m 0] at heval
  rw [withinCeiling_of_le (Nat.le_refl m), withinCeiling_of_le (Nat.le_refl m)] at heval
  exact ⟨heval.symm, rfl⟩

mutual

theorem Exceeds.eval {table : FunctionTable} {k : Nat} {bindings : Bindings}
    {e : Expr} (h : Exceeds table k bindings e) (depth : Nat) :
    Expr.eval (table.scope k bindings) depth e = .error .excessiveRecursion := by
  match h with
  | .first hneeds he hexceeds =>
    have hoperand := Exceeds.eval hexceeds (depth + 1)
    exact Expr.eval_of_operand hneeds ((Expr.evalAt_of_getElem? _ he).trans hoperand)
  | @Exceeds.second _ _ _ op operands apply x n e hmeaning hat he hexceeds =>
    have hneeds : op.meaning.NeedsOperand := by simp [hmeaning, Meaning.NeedsOperand]
    have hsecond := (Expr.evalAt_of_getElem? op he).trans (Exceeds.eval hexceeds (depth + 1))
    have hnode := Expr.eval_after_operand (n := 0) hneeds (hat.eval k (depth + 1)) (fun hx => by
      rw [Expr.eval_binary hmeaning hx, hsecond, withinCeiling_zero])
    exact hnode.trans (withinCeiling_excessive k _)
  | @Exceeds.chosen _ _ _ op operands choose x n e hmeaning hat hchoose he hexceeds =>
    have hneeds : op.meaning.NeedsOperand := by simp [hmeaning, Meaning.NeedsOperand]
    have hother := (Expr.evalAt_of_getElem? op he).trans (Exceeds.eval hexceeds (depth + 1))
    have hnode := Expr.eval_after_operand (n := 0) hneeds (hat.eval k (depth + 1)) (fun hx => by
      rw [Expr.eval_choice hmeaning hx, if_neg hchoose, hother, withinCeiling_zero])
    exact hnode.trans (withinCeiling_excessive k _)
  | .argument hcalls hexceeds =>
    have harguments := ExceedsAll.eval hexceeds (depth + 2)
    rw [Expr.eval_call hcalls, harguments]
  | @Exceeds.body _ k _ _ _ f values n hcalls hall hexceeds =>
    have hbody := Exceeds.eval hexceeds (depth + 1)
    have hnode := Expr.eval_after_arguments (n := 0) hcalls (hall.eval (k + 1) (depth + 2))
      (hbody.trans (withinCeiling_zero _ _).symm)
    exact hnode.trans (withinCeiling_excessive _ _)
  | .here hcalls hall =>
    have hnode := Expr.eval_after_arguments (n := 0) hcalls (hall.eval 0 (depth + 2))
      (r := .error .excessiveRecursion) rfl
    exact hnode.trans (withinCeiling_excessive _ _)

theorem ExceedsAll.eval {table : FunctionTable} {k : Nat} {bindings : Bindings}
    {operands : List Expr} (h : ExceedsAll table k bindings operands) (depth : Nat) :
    Expr.evalAll (table.scope k bindings) depth operands = .error .excessiveRecursion := by
  match h with
  | .head hexceeds => exact Expr.evalAll_of_head (Exceeds.eval hexceeds depth)
  | .tail heval hexceeds =>
    have htail := ExceedsAll.eval hexceeds depth
    have hlist := Expr.evalAll_cons (n := 0) (heval.eval k depth)
      (htail.trans (withinCeiling_zero k _).symm)
    exact hlist.trans (withinCeiling_excessive k _)

end

section Deciding

variable {table : FunctionTable} {k : Nat} {bindings : Bindings} {op : Operator}
  {name : String} {operands : List Expr} {f : Formula}

/-- The reference evaluation has an outcome within the ceiling or goes beyond it. -/
def Decided (table : FunctionTable) (k : Nat) (bindings : Bindings) (e : Expr) :
    Prop :=
  (∃ r n, n ≤ k ∧ Evaluates table bindings e r n) ∨ Exceeds table k bindings e

theorem decided_operand (h : ∀ e ∈ operands, Decided table k bindings e) (op : Operator) (i : Nat) :
    (∃ r n, n ≤ k ∧ EvaluatesAt table bindings op operands i r n) ∨
      ∃ e, operands[i]? = some e ∧ Exceeds table k bindings e := by
  cases he : operands[i]? with
  | none => exact .inl ⟨_, 0, Nat.zero_le k, .missing he⟩
  | some e =>
    rcases h e (List.mem_of_getElem? he) with ⟨r, n, hn, heval⟩ | hexceeds
    · exact .inl ⟨r, n, hn, .present he heval⟩
    · exact .inr ⟨e, rfl, hexceeds⟩

theorem decided_arguments (h : ∀ e ∈ operands, Decided table k bindings e) :
    (∃ r n, n ≤ k ∧ EvaluatesAll table bindings operands r n) ∨
      ExceedsAll table k bindings operands := by
  induction operands with
  | nil => exact .inl ⟨_, 0, Nat.zero_le k, .nil⟩
  | cons e es ih =>
    obtain ⟨he, hes⟩ := List.forall_mem_cons.1 h
    rcases he with ⟨r, m, hm, heval⟩ | hexceeds
    · cases r with
      | error err => exact .inl ⟨_, m, hm, .failed heval⟩
      | ok x =>
        rcases ih hes with ⟨rs, n, hn, hall⟩ | hexceeds
        · exact .inl ⟨_, max m n, Nat.max_le.2 ⟨hm, hn⟩, .cons heval hall⟩
        · exact .inr (.tail heval hexceeds)
    · exact .inr (.head hexceeds)

theorem decided_operator (h : ∀ e ∈ operands, Decided table k bindings e) :
    Decided table k bindings (.operator op operands) := by
  cases hmeaning : op.meaning with
  | constant value => exact .inl ⟨_, 0, Nat.zero_le k, .builtin hmeaning⟩
  | structural => exact .inl ⟨_, 0, Nat.zero_le k, .structural hmeaning⟩
  | unary apply =>
    have hneeds : op.meaning.NeedsOperand := by simp [hmeaning, Meaning.NeedsOperand]
    rcases decided_operand h op 0 with ⟨r, n, hn, hat⟩ | ⟨e, he, hexceeds⟩
    · cases r with
      | error err => exact .inl ⟨_, n, hn, .operandFailed hneeds hat⟩
      | ok x => exact .inl ⟨_, n, hn, .unary hmeaning hat⟩
    · exact .inr (.first hneeds he hexceeds)
  | binary apply =>
    have hneeds : op.meaning.NeedsOperand := by simp [hmeaning, Meaning.NeedsOperand]
    rcases decided_operand h op 0 with ⟨r, m, hm, hat⟩ | ⟨e, he, hexceeds⟩
    · cases r with
      | error err => exact .inl ⟨_, m, hm, .operandFailed hneeds hat⟩
      | ok x =>
        rcases decided_operand h op 1 with ⟨r, n, hn, hat'⟩ | ⟨e, he, hexceeds⟩
        · exact .inl ⟨_, max m n, Nat.max_le.2 ⟨hm, hn⟩, .binary hmeaning hat hat'⟩
        · exact .inr (.second hmeaning hat he hexceeds)
    · exact .inr (.first hneeds he hexceeds)
  | choice choose =>
    have hneeds : op.meaning.NeedsOperand := by simp [hmeaning, Meaning.NeedsOperand]
    rcases decided_operand h op 0 with ⟨r, m, hm, hat⟩ | ⟨e, he, hexceeds⟩
    · cases r with
      | error err => exact .inl ⟨_, m, hm, .operandFailed hneeds hat⟩
      | ok x =>
        by_cases hchoose : choose x = 0
        · exact .inl ⟨_, m, hm, .first hmeaning hat hchoose⟩
        · rcases decided_operand h op (choose x) with ⟨r, n, hn, hat'⟩ | ⟨e, he, hexceeds⟩
          · exact .inl ⟨_, max m n, Nat.max_le.2 ⟨hm, hn⟩, .chosen hmeaning hat hchoose hat'⟩
          · exact .inr (.chosen hmeaning hat hchoose he hexceeds)
    · exact .inr (.first hneeds he hexceeds)

theorem decided_call (h : ∀ e ∈ operands, Decided table k bindings e)
    (hbody : ∀ j, k = j + 1 → ∀ bindings e, Decided table j bindings e) :
    Decided table k bindings (.call name operands) := by
  cases hlookup : Text.lookup? name bindings with
  | some value =>
    cases operands with
    | nil => exact .inl ⟨_, 0, Nat.zero_le k, .parameter hlookup⟩
    | cons e es => exact .inl ⟨_, 0, Nat.zero_le k, .parameterCalled hlookup (by simp)⟩
  | none =>
    cases hfind : table.find? name with
    | none => exact .inl ⟨_, 0, Nat.zero_le k, .unknown hlookup hfind⟩
    | some f =>
      by_cases harity : operands.length = f.parameters.length
      · have hcalls : table.Calls bindings name operands f := ⟨hlookup, hfind, harity⟩
        rcases decided_arguments h with ⟨r, m, hm, hall⟩ | hexceeds
        · cases r with
          | error err => exact .inl ⟨_, m, hm, .argumentFailed hcalls hall⟩
          | ok values =>
            cases k with
            | zero => exact .inr (.here hcalls hall)
            | succ k =>
              rcases hbody k rfl (f.parameters.zip values) f.body with ⟨r, n, hn, heval⟩ | hexceeds
              · exact .inl ⟨r, max m (n + 1), by omega, .call hcalls hall heval⟩
              · exact .inr (.body hcalls hall hexceeds)
        · exact .inr (.argument hcalls hexceeds)
      · exact .inl ⟨_, 0, Nat.zero_le k, .wrongArity hlookup hfind harity⟩

/-- Every evaluation ends: the calls that are left become fewer in a body, and the expression
becomes smaller elsewhere. -/
theorem decided (table : FunctionTable) (k : Nat) (bindings : Bindings) (e : Expr) :
    Decided table k bindings e := by
  induction k generalizing bindings e with
  -- The expression is inducted on inside: a body is no part of it, but has a call less.
  | zero =>
    induction e using Expr.induction_operands with
    | constant value => exact .inl ⟨_, 0, Nat.zero_le 0, .constant⟩
    | operator op operands ih => exact decided_operator ih
    | call name operands ih => exact decided_call ih nofun
  | succ k ihk =>
    induction e using Expr.induction_operands with
    | constant value => exact .inl ⟨_, 0, Nat.zero_le _, .constant⟩
    | operator op operands ih => exact decided_operator ih
    | call name operands ih =>
      refine decided_call ih ?_
      intro j hj
      cases hj
      exact ihk

end Deciding

/-- The ceiling is exact, and evaluation always ends. An outcome other than that the ceiling was
reached is that of the reference evaluation with its calls nested at most as deep as the ceiling;
the ceiling is reached where the reference evaluation, with no error before, has the arguments of
a call that is one deeper. Of every expression one or the other holds. -/
theorem evaluate_ceiling (table : FunctionTable) (e : Expr) :
    (∀ r, table.evaluate none e = r ∧ r ≠ .error .excessiveRecursion ↔
      ∃ n, n ≤ callCeiling ∧ Evaluates table [] e r n) ∧
      (table.evaluate none e = .error .excessiveRecursion ↔ Exceeds table callCeiling [] e) ∧
      ((∃ r n, n ≤ callCeiling ∧ Evaluates table [] e r n) ∨ Exceeds table callCeiling [] e) := by
  have hdecided := decided table callCeiling [] e
  have heval : ∀ r n, n ≤ callCeiling → Evaluates table [] e r n →
      table.evaluate none e = r ∧ r ≠ .error .excessiveRecursion := by
    intro r n hn h
    have hr := h.eval callCeiling 1
    rw [withinCeiling_of_le hn] at hr
    exact ⟨hr, h.ne_excessive⟩
  have hexceeds : Exceeds table callCeiling [] e →
      table.evaluate none e = .error .excessiveRecursion := fun h => h.eval 1
  refine ⟨?_, ?_, hdecided⟩
  · intro r
    constructor
    · rintro ⟨hr, hne⟩
      rcases hdecided with ⟨r', n, hn, h⟩ | h
      · have heq : r' = r := (heval r' n hn h).1.symm.trans hr
        subst heq
        exact ⟨n, hn, h⟩
      · exact absurd (hr.symm.trans (hexceeds h)) hne
    · rintro ⟨n, hn, h⟩
      exact heval r n hn h
  · constructor
    · intro hr
      rcases hdecided with ⟨r, n, hn, h⟩ | h
      · obtain ⟨heq, hne⟩ := heval r n hn h
        exact absurd (heq.symm.trans hr) hne
      · exact h
    · exact hexceeds

end Reckon
