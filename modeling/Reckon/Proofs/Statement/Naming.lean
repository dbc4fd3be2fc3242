import Reckon.Function.Table
import Reckon.Proofs.Statement.Joining
import Reckon.Proofs.Statement.WellFormed
set_option autoImplicit false

namespace Reckon

def Definition.statement (d : Definition) : Expr :=
  .operator .assign [.call d.name (d.formula.parameters.map fun p => .call p []), d.formula.body]

namespace Expr

theorem bareName?_eq_some_iff {e : Expr} {name : String} :
    e.bareName? = some name ↔ e = .call name [] := by
  unfold bareName?
  split <;> simp_all

theorem bareNames_iff {es : List Expr} {names : List String} :
    es.mapM bareName? = some names ↔ es = names.map fun name => .call name [] := by
  induction es generalizing names with
  | nil => cases names <;> simp
  | cons e es ih => cases names <;> simp [Option.bind_eq_some_iff, bareName?_eq_some_iff, ih]

theorem definition?_eq_some_iff {e : Expr} {d : Definition} :
    e.definition? = some d ↔ e = d.statement := by
  obtain ⟨name, parameters, body⟩ := d
  constructor
  · intro h
    unfold definition? at h
    split at h
    · obtain ⟨names, hnames, hd⟩ := Option.map_eq_some_iff.1 h
      cases hd
      rw [Definition.statement, bareNames_iff.1 hnames]
    · cases h
  · rintro rfl
    simp only [Definition.statement, definition?, bareNames_iff.2 rfl, Option.map_some]

end Expr

/-- Every call in the expression, at whatever depth, is of a name with the property. -/
inductive Expr.CallsOnly (P : String → Prop) : Expr → Prop where
  | constant {value : Number} : CallsOnly P (.constant value)
  | operator {op : Operator} {operands : List Expr} :
      (∀ e ∈ operands, e.CallsOnly P) → CallsOnly P (.operator op operands)
  | call {name : String} {operands : List Expr} :
      P name → (∀ e ∈ operands, e.CallsOnly P) → CallsOnly P (.call name operands)

def IsUserName (name : String) : Prop := ∀ op ∈ Operator.table, op.name ≠ name

instance (name : String) : Decidable (IsUserName name) :=
  inferInstanceAs (Decidable (∀ op ∈ Operator.table, op.name ≠ name))

namespace Expr.CallsOnly

variable {P : String → Prop} {op : Operator} {name : String} {operands : List Expr} {e : Expr}

theorem operands_of_operator (h : CallsOnly P (.operator op operands)) :
    ∀ e ∈ operands, e.CallsOnly P := by
  cases h with
  | operator h => exact h

theorem name_of_call (h : CallsOnly P (.call name operands)) : P name := by
  cases h with
  | call hname _ => exact hname

theorem operands_of_call (h : CallsOnly P (.call name operands)) :
    ∀ e ∈ operands, e.CallsOnly P := by
  cases h with
  | call _ h => exact h

theorem definition {d : Definition} (h : e.CallsOnly P) (hd : e.definition? = some d) :
    P d.name ∧ (∀ parameter ∈ d.formula.parameters, P parameter) ∧ d.formula.body.CallsOnly P := by
  obtain rfl := definition?_eq_some_iff.1 hd
  have hsides := h.operands_of_operator
  have htarget := hsides _ (List.mem_cons_self ..)
  refine ⟨htarget.name_of_call, fun parameter hparameter => ?_, hsides _ (by simp)⟩
  have hbare := htarget.operands_of_call (.call parameter []) (by simpa using hparameter)
  exact hbare.name_of_call

end Expr.CallsOnly

theorem Named.callsOnly {name : String} {arguments : List Expr} {e : Expr}
    (h : Named name arguments e) (harguments : ∀ a ∈ arguments, a.CallsOnly IsUserName) :
    e.CallsOnly IsUserName := by
  cases h with
  | builtIn _ _ => exact .operator harguments
  | user hname => exact .call hname harguments

theorem Joined.callsOnly {P : String → Prop} {op : Operator} {a b e : Expr} (h : Joined op a b e)
    (ha : a.CallsOnly P) (hb : b.CallsOnly P) : e.CallsOnly P := by
  cases h with
  | conditional => exact .operator (List.forall_mem_cons.2 ⟨ha, hb.operands_of_operator⟩)
  | plain _ => exact .operator (by simpa using ⟨ha, hb⟩)

theorem Derives.callsOnly {limit : Limit} {d : Nat} {c : Category} {s : List Token} {e : Expr}
    (h : Derives limit d c s e) : e.CallsOnly IsUserName := by
  induction h with
  | looser _ _ ih => exact ih
  | join _ _ _ _ hjoined iha ihb => exact hjoined.callsOnly iha ihb
  | signed _ _ _ ih => exact .operator (by simpa using ih)
  | number _ => exact .constant
  | name _ hnamed => exact hnamed.callsOnly nofun
  | bareCall _ _ _ hnamed => exact hnamed.callsOnly nofun
  | call _ _ _ _ _ _ _ hnamed ihinitial ihlast =>
    refine hnamed.callsOnly ?_
    intro a ha
    rcases List.mem_append.1 ha with ha | ha
    · obtain ⟨argument, hargument, rfl⟩ := List.mem_map.1 ha
      exact ihinitial argument hargument
    · rw [List.mem_singleton.1 ha]
      exact ihlast
  | group _ _ _ ih => exact ih

theorem TokenQueue.callsOnly_of_statement {mode : ReaderMode} {q rest : TokenQueue} {e : Expr}
    (hq : q.HasSigns) (h : q.statement mode = (.ok e, rest)) : e.CallsOnly IsUserName := by
  have hstart : Traced mode.limit ReaderState.start [] := .start .nil .nil
  obtain ⟨s, ending, -, hderives, -⟩ := hstart.sentence hq h
  exact hderives.callsOnly

theorem Reading.callsOnly_ofLine [Stack] (source : String) :
    ∀ e ∈ (ofLine source).statements, e.CallsOnly IsUserName :=
  forall_upTo (fun _ _ _ hq h => ⟨TokenQueue.callsOnly_of_statement hq h, hq.remaining h⟩) _
    (TokenQueue.hasSigns_ofLine source)

end Reckon
