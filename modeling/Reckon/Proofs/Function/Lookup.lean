import Reckon.Proofs.Function.Operands
/-!
Which functions an evaluation uses, told by the evaluation itself: the names it looks up, and
the functions whose bodies it enters (`Reaches`). Nothing else of the table matters to the outcome
(`Reaches.eval_congr`), and looking up a name in vain is the end (`Reaches.eval_unknown`).
-/
set_option autoImplicit false

namespace Reckon

/-- What an evaluation does with the name of a function. -/
inductive Use where
  | lookup (name : String)
  | entry (name : String)

mutual

/-- Evaluating the expression comes to this use of a function. -/
inductive Reaches (table : FunctionTable) (limit : Limit) :
    Nat → Bindings → Nat → Expr → Use → Prop where
  | operand {calls : Nat} {bindings : Bindings} {depth i : Nat} {op : Operator}
      {operands : List Expr} {e : Expr} {use : Use} :
      limit.allows depth = true →
      op.Asks (fun i => Expr.evalAt (table.frame limit calls bindings) (depth + 1) op i operands)
        i →
      operands[i]? = some e → Reaches table limit calls bindings (depth + 1) e use →
      Reaches table limit calls bindings depth (.operator op operands) use
  /-- A bare name and a call are looked up alike, unless the name is that of a parameter. -/
  | lookup {calls : Nat} {bindings : Bindings} {depth : Nat} {name : String}
      {operands : List Expr} :
      limit.allows depth = true → Text.lookup? name bindings = none →
      Reaches table limit calls bindings depth (.call name operands) (.lookup name)
  | argument {calls : Nat} {bindings : Bindings} {depth : Nat} {name : String}
      {operands : List Expr} {f : Formula} {use : Use} :
      limit.allows depth = true → table.Calls bindings name operands f →
      ReachesAny table limit calls bindings (depth + 2) operands use →
      Reaches table limit calls bindings depth (.call name operands) use
  | entry {calls : Nat} {bindings : Bindings} {depth : Nat} {name : String}
      {operands : List Expr} {f : Formula} {values : List Number} :
      limit.allows depth = true → table.Calls bindings name operands f →
      Expr.evalAll (table.frame limit (calls + 1) bindings) (depth + 2) operands = .ok values →
      Reaches table limit (calls + 1) bindings depth (.call name operands) (.entry name)
  | body {calls : Nat} {bindings : Bindings} {depth : Nat} {name : String}
      {operands : List Expr} {f : Formula} {values : List Number} {use : Use} :
      limit.allows depth = true → table.Calls bindings name operands f →
      Expr.evalAll (table.frame limit (calls + 1) bindings) (depth + 2) operands = .ok values →
      Reaches table limit calls (f.parameters.zip values) (depth + 1) f.body use →
      Reaches table limit (calls + 1) bindings depth (.call name operands) use

inductive ReachesAny (table : FunctionTable) (limit : Limit) :
    Nat → Bindings → Nat → List Expr → Use → Prop where
  | head {calls : Nat} {bindings : Bindings} {depth : Nat} {e : Expr} {es : List Expr}
      {use : Use} :
      Reaches table limit calls bindings depth e use →
      ReachesAny table limit calls bindings depth (e :: es) use
  | tail {calls : Nat} {bindings : Bindings} {depth : Nat} {e : Expr} {es : List Expr}
      {x : Number} {use : Use} :
      Expr.eval (table.frame limit calls bindings) depth e = .ok x →
      ReachesAny table limit calls bindings depth es use →
      ReachesAny table limit calls bindings depth (e :: es) use

end

namespace FunctionTable

def LooksUp (table : FunctionTable) (limit : Limit) (e : Expr) (name : String) : Prop :=
  Reaches table limit callCeiling [] 1 e (.lookup name)

def Enters (table : FunctionTable) (limit : Limit) (e : Expr) (name : String) : Prop :=
  Reaches table limit callCeiling [] 1 e (.entry name)

def arity? (table : FunctionTable) (name : String) : Option Nat :=
  (table.find? name).map fun f => f.parameters.length

/-- Two tables are the same for a use: a lookup sees the number of parameters only. -/
def Agrees (table other : FunctionTable) : Use → Prop
  | .lookup name => other.arity? name = table.arity? name
  | .entry name => other.find? name = table.find? name

end FunctionTable

section Dependence

variable {table other : FunctionTable} {limit : Limit} {calls depth : Nat} {bindings : Bindings}
  {name : String} {operands : List Expr}

theorem FunctionTable.find?_of_arity? (h : other.arity? name = table.arity? name) :
    (table.find? name = none ∧ other.find? name = none) ∨
      ∃ f g, table.find? name = some f ∧ other.find? name = some g ∧
        g.parameters.length = f.parameters.length := by
  unfold arity? at h
  cases hf : table.find? name with
  | none => exact .inl ⟨rfl, by simpa [hf] using h⟩
  | some f =>
    cases hg : other.find? name with
    | none => simp [hf, hg] at h
    | some g => exact .inr ⟨f, g, rfl, rfl, by simpa [hf, hg] using h⟩

theorem ReachesAny.evalAll_congr
    (hall : ∀ e ∈ operands, (∀ use, Reaches table limit calls bindings depth e use →
        table.Agrees other use) →
      e.eval (other.frame limit calls bindings) depth =
        e.eval (table.frame limit calls bindings) depth)
    (h : ∀ use, ReachesAny table limit calls bindings depth operands use →
      table.Agrees other use) :
    Expr.evalAll (other.frame limit calls bindings) depth operands =
      Expr.evalAll (table.frame limit calls bindings) depth operands := by
  induction operands with
  | nil => simp [Expr.evalAll]
  | cons e es ih =>
    obtain ⟨he, hes⟩ := List.forall_mem_cons.1 hall
    have heval := he fun use hreaches => h use (.head hreaches)
    cases hx : e.eval (table.frame limit calls bindings) depth with
    | error err => simp [Expr.evalAll, heval, hx]
    | ok x =>
      have hrest := ih hes fun use hreaches => h use (.tail hx hreaches)
      simp [Expr.evalAll, heval, hx, hrest]

theorem Reaches.call_congr (hallows : limit.allows depth = true)
    (h : ∀ use, Reaches table limit calls bindings depth (.call name operands) use →
      table.Agrees other use)
    (hall : ∀ e ∈ operands, (∀ use, Reaches table limit calls bindings (depth + 2) e use →
        table.Agrees other use) →
      e.eval (other.frame limit calls bindings) (depth + 2) =
        e.eval (table.frame limit calls bindings) (depth + 2))
    (hbody : ∀ j, calls = j + 1 → ∀ bindings e,
      (∀ use, Reaches table limit j bindings (depth + 1) e use → table.Agrees other use) →
      e.eval (other.frame limit j bindings) (depth + 1) =
        e.eval (table.frame limit j bindings) (depth + 1)) :
    Expr.eval (other.frame limit calls bindings) depth (.call name operands) =
      Expr.eval (table.frame limit calls bindings) depth (.call name operands) := by
  cases hlookup : Text.lookup? name bindings with
  | some value => simp [Expr.eval, FunctionTable.frame, hallows, hlookup]
  | none =>
    rcases FunctionTable.find?_of_arity? (h _ (.lookup hallows hlookup)) with
      ⟨hnone, hnone'⟩ | ⟨f, g, hf, hg, hlength⟩
    · simp [Expr.eval, FunctionTable.frame, hallows, hlookup, hnone, hnone']
    · by_cases harity : operands.length = f.parameters.length
      · have hcalls : table.Calls bindings name operands f := ⟨hlookup, hf, harity⟩
        have hcalls' : other.Calls bindings name operands g :=
          ⟨hlookup, hg, harity.trans hlength.symm⟩
        have harguments := ReachesAny.evalAll_congr hall fun use hreaches =>
          h use (.argument hallows hcalls hreaches)
        rw [Expr.eval_frame_call hallows hcalls, Expr.eval_frame_call hallows hcalls', harguments]
        cases hvalues : Expr.evalAll (table.frame limit calls bindings) (depth + 2) operands with
        | error err => rfl
        | ok values =>
          cases calls with
          | zero => rfl
          | succ calls =>
            have hsame : other.find? name = table.find? name :=
              h _ (.entry hallows hcalls hvalues)
            have hfg : f = g := Option.some.inj (hf.symm.trans (hsame.symm.trans hg))
            subst hfg
            exact hbody calls rfl _ _ fun use hreaches =>
              h use (.body hallows hcalls hvalues hreaches)
      · simp [Expr.eval, FunctionTable.frame, hallows, hlookup, hf, hg, harity, hlength]

theorem Reaches.eval_congr {e : Expr}
    (h : ∀ use, Reaches table limit calls bindings depth e use → table.Agrees other use) :
    e.eval (other.frame limit calls bindings) depth =
      e.eval (table.frame limit calls bindings) depth := by
  -- A body has fewer calls left, and everything else is a part of the expression.
  induction calls using Nat.strongRecOn generalizing bindings depth e with
  | ind calls ihc =>
    induction e using Expr.induction_operands generalizing depth with
    | constant value => rfl
    | operator op operands ih =>
      cases hallows : limit.allows depth with
      | false => rw [Expr.eval_of_not_allows hallows, Expr.eval_of_not_allows hallows]
      | true =>
        rw [Expr.eval_frame_operator hallows, Expr.eval_frame_operator hallows]
        refine Operator.outcome_congr fun i hasks => ?_
        rw [Expr.evalAt_eq, Expr.evalAt_eq]
        cases hi : operands[i]? with
        | none => rfl
        | some e =>
          exact ih e (List.mem_of_getElem? hi) fun use hreaches =>
            h use (.operand hallows hasks hi hreaches)
    | call name operands ih =>
      cases hallows : limit.allows depth with
      | false => rw [Expr.eval_of_not_allows hallows, Expr.eval_of_not_allows hallows]
      | true =>
        refine Reaches.call_congr hallows h (fun e he => ih e he) ?_
        intro j hj bindings e hreaches
        exact ihc j (by omega) hreaches

end Dependence

mutual

theorem Reaches.eval_unknown {table : FunctionTable} {limit : Limit} {calls depth : Nat}
    {bindings : Bindings} {e : Expr} {name : String} {use : Use}
    (h : Reaches table limit calls bindings depth e use) (huse : use = .lookup name)
    (hname : table.find? name = none) :
    e.eval (table.frame limit calls bindings) depth = .error (.unknownName name) := by
  match h with
  | .operand hallows hasks hi hreaches =>
    have hoperand := Reaches.eval_unknown hreaches huse hname
    rw [Expr.eval_frame_operator hallows]
    exact Operator.outcome_of_error hasks ((Expr.evalAt_of_getElem? _ hi).trans hoperand)
  | .lookup hallows hlookup =>
    cases huse
    simp [Expr.eval, FunctionTable.frame, hallows, hlookup, hname]
  | .argument hallows hcalls hreaches =>
    rw [Expr.eval_frame_call hallows hcalls, ReachesAny.evalAll_unknown hreaches huse hname]
  | .entry _ _ _ => cases huse
  | .body hallows hcalls hvalues hreaches =>
    rw [Expr.eval_frame_call hallows hcalls, hvalues]
    exact Reaches.eval_unknown hreaches huse hname

theorem ReachesAny.evalAll_unknown {table : FunctionTable} {limit : Limit} {calls depth : Nat}
    {bindings : Bindings} {operands : List Expr} {name : String} {use : Use}
    (h : ReachesAny table limit calls bindings depth operands use) (huse : use = .lookup name)
    (hname : table.find? name = none) :
    Expr.evalAll (table.frame limit calls bindings) depth operands =
      .error (.unknownName name) := by
  match h with
  | .head hreaches => simp [Expr.evalAll, Reaches.eval_unknown hreaches huse hname]
  | .tail hx hreaches => simp [Expr.evalAll, hx, ReachesAny.evalAll_unknown hreaches huse hname]

end

mutual

theorem Reaches.lookup_of_entry {table : FunctionTable} {limit : Limit} {calls depth : Nat}
    {bindings : Bindings} {e : Expr} {name : String} {use : Use}
    (h : Reaches table limit calls bindings depth e use) (huse : use = .entry name) :
    Reaches table limit calls bindings depth e (.lookup name) := by
  match h with
  | .operand hallows hasks hi hreaches =>
    exact .operand hallows hasks hi (Reaches.lookup_of_entry hreaches huse)
  | .lookup _ _ => cases huse
  | .argument hallows hcalls hreaches =>
    exact .argument hallows hcalls (ReachesAny.lookup_of_entry hreaches huse)
  | .entry hallows hcalls _ =>
    cases huse
    exact .lookup hallows hcalls.unbound
  | .body hallows hcalls hvalues hreaches =>
    exact .body hallows hcalls hvalues (Reaches.lookup_of_entry hreaches huse)

theorem ReachesAny.lookup_of_entry {table : FunctionTable} {limit : Limit} {calls depth : Nat}
    {bindings : Bindings} {operands : List Expr} {name : String} {use : Use}
    (h : ReachesAny table limit calls bindings depth operands use) (huse : use = .entry name) :
    ReachesAny table limit calls bindings depth operands (.lookup name) := by
  match h with
  | .head hreaches => exact .head (Reaches.lookup_of_entry hreaches huse)
  | .tail hx hreaches => exact .tail hx (ReachesAny.lookup_of_entry hreaches huse)

end

namespace FunctionTable

variable {table other : FunctionTable} {limit : Limit} {e : Expr} {name : String} {f g : Formula}

theorem evaluate_congr
    (h : ∀ name, table.LooksUp limit e name → other.find? name = table.find? name) :
    other.evaluate limit e = table.evaluate limit e := by
  refine Reaches.eval_congr fun use hreaches => ?_
  cases use with
  | lookup name => exact congrArg (Option.map _) (h name hreaches)
  | entry name => exact h name (hreaches.lookup_of_entry rfl)

theorem evaluate_define_of_not_looksUp (f : Formula) (h : ¬ table.LooksUp limit e name) :
    (table.define name f).evaluate limit e = table.evaluate limit e := by
  refine evaluate_congr fun other hother => ?_
  have hne : name ≠ other := fun heq => h (heq ▸ hother)
  rw [find?_define, if_neg hne]

theorem evaluate_define_of_not_enters (hf : table.find? name = some f)
    (hlength : g.parameters.length = f.parameters.length) (h : ¬ table.Enters limit e name) :
    (table.define name g).evaluate limit e = table.evaluate limit e := by
  refine Reaches.eval_congr fun use hreaches => ?_
  cases use with
  | lookup other =>
    by_cases hother : name = other
    · subst hother
      simp [Agrees, arity?, find?_define, hf, hlength]
    · simp [Agrees, arity?, find?_define, hother]
  | entry other =>
    have hne : name ≠ other := fun heq => h (heq ▸ hreaches)
    simp [Agrees, find?_define, hne]

end FunctionTable

/-- An evaluation depends on the definitions it looks up and on nothing else of the table. So a
new definition can only mend the error that its name was unknown; a definition of a name that is
not looked up, because no call of it is evaluated, changes nothing; and of a function whose body
is never entered only the number of parameters counts. -/
theorem evaluate_lookups (table : FunctionTable) (limit : Limit) (e : Expr) :
    (∀ other : FunctionTable,
      (∀ name, table.LooksUp limit e name → other.find? name = table.find? name) →
      other.evaluate limit e = table.evaluate limit e) ∧
    (∀ name f, table.find? name = none →
      (table.define name f).evaluate limit e ≠ table.evaluate limit e →
      table.evaluate limit e = .error (.unknownName name)) ∧
    (∀ name f, ¬ table.LooksUp limit e name →
      (table.define name f).evaluate limit e = table.evaluate limit e) ∧
    ∀ name f g, table.find? name = some f → g.parameters.length = f.parameters.length →
      ¬ table.Enters limit e name →
      (table.define name g).evaluate limit e = table.evaluate limit e := by
  refine ⟨fun _ => FunctionTable.evaluate_congr, ?_, ?_, ?_⟩
  · intro name f hname hne
    have hlooks : table.LooksUp limit e name := Classical.byContradiction fun hnot =>
      hne (FunctionTable.evaluate_define_of_not_looksUp f hnot)
    exact hlooks.eval_unknown rfl hname
  · exact fun _ f hnot => FunctionTable.evaluate_define_of_not_looksUp f hnot
  · exact fun _ _ _ hf hlength hnot => FunctionTable.evaluate_define_of_not_enters hf hlength hnot

/-- In `f(g) = g || h`, called with a true value, neither `g` nor `h` is looked up: one is the
parameter, and the other one is skipped. -/
theorem evaluate_lookups_skipped :
    let body : Expr := .operator .logicalOr [.call "g" [], .call "h" []]
    let table := FunctionTable.empty.define "f" ⟨["g"], body⟩
    let e : Expr := .call "f" [.constant .nan]
    (∀ name, name ≠ "f" → ¬ table.LooksUp none e name) ∧
      ∀ f g, ((table.define "g" f).evaluate none e = table.evaluate none e) ∧
        (table.define "h" g).evaluate none e = table.evaluate none e := by
  intro body table e
  have hfind : table.find? "f" = some ⟨["g"], body⟩ := rfl
  -- The body asks for the parameter only, whose value decides.
  have hbody : ∀ calls depth use, ¬ Reaches table none calls [("g", .nan)] depth
      (.operator .logicalOr [.call "g" [], .call "h" []]) use := by
    intro calls depth use h
    cases h with
    | operand _ hasks hi hreaches =>
      cases hasks with
      | first _ =>
        cases hi
        cases hreaches with
        | lookup _ hlookup => cases hlookup
        | argument _ hcalls _ => cases hcalls.unbound
        | entry _ hcalls _ => cases hcalls.unbound
        | body _ hcalls _ _ => cases hcalls.unbound
      | second hmeaning _ => cases hmeaning
      | chosen hmeaning hx hchoose =>
        cases hmeaning
        cases hx
        exact hchoose rfl
  have hcall : ∀ calls name, name ≠ "f" →
      ¬ Reaches table none calls [] 1 (.call "f" [.constant .nan]) (.lookup name) := by
    intro calls name hne h
    cases h with
    | lookup _ _ => exact hne rfl
    | argument _ _ hreaches =>
      cases hreaches with
      | head hreaches => cases hreaches
      | tail _ hreaches => cases hreaches
    | body _ hcalls hvalues hreaches =>
      cases hfind.symm.trans hcalls.found
      cases hvalues
      exact hbody _ _ _ hreaches
  have hnot : ∀ name, name ≠ "f" → ¬ table.LooksUp none e name := hcall callCeiling
  refine ⟨hnot, fun f g => ⟨?_, ?_⟩⟩
  · exact (evaluate_lookups table none e).2.2.1 "g" f (hnot "g" (by decide))
  · exact (evaluate_lookups table none e).2.2.1 "h" g (hnot "h" (by decide))

end Reckon
