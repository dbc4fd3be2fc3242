import Reckon.Proofs.Function.Truth
import Reckon.Proofs.Session.History
import Reckon.Proofs.Statement.Phrase
/-!
Chains of conditions. A question mark and a colon after each condition and its value make
conditionals inside of one another, of which the first condition that is not zero picks its value
(`conditional_chain`). Each further conditional stands one level deeper, so a chain of any length
is read, but a long one meets the bound on nesting (`conditional_chain_exceptions`).
-/
set_option autoImplicit false

namespace Reckon

structure Branch (α : Type) where
  condition : α
  value : α

namespace Branch

def map {α β : Type} (f : α → β) (b : Branch α) : Branch β := ⟨f b.condition, f b.value⟩

def text (last : String) : List (Branch String) → String
  | [] => last
  | b :: bs => b.condition ++ " ? " ++ b.value ++ " : " ++ text last bs

/-- The conditionals of the branches, each with the next one for its alternative. -/
def chain (last : Expr) : List (Branch Expr) → Expr
  | [] => last
  | b :: bs => .operator .conditional [b.condition, b.value, chain last bs]

/-- Conditions are tried in order up to the first one that is not zero, which picks its value, or
up to the first error. The parts of a branch stand one level deeper than the branch before it. -/
def chosen (outcome : Nat → Expr → Except Error Number) (depth : Nat) (last : Expr) :
    List (Branch Expr) → Except Error Number
  | [] => outcome depth last
  | b :: bs =>
    match outcome (depth + 1) b.condition with
    | .error err => .error err
    | .ok x =>
      if x.isZero then chosen outcome (depth + 1) last bs else outcome (depth + 1) b.value

section Chosen

variable {outcome : Nat → Expr → Except Error Number} {depth : Nat} {last : Expr}

theorem chosen_append {before : List (Branch Expr)} (after : List (Branch Expr))
    (hzero : ∀ i b, before[i]? = some b →
      ∃ x, outcome (depth + i + 1) b.condition = .ok x ∧ x.isZero = true) :
    chosen outcome depth last (before ++ after) =
      chosen outcome (depth + before.length) last after := by
  induction before generalizing depth with
  | nil => rfl
  | cons b bs ih =>
    obtain ⟨x, hx, hxzero⟩ := hzero 0 b rfl
    have hx : outcome (depth + 1) b.condition = .ok x := hx
    have hrest : ∀ i b, bs[i]? = some b →
        ∃ x, outcome (depth + 1 + i + 1) b.condition = .ok x ∧ x.isZero = true := by
      intro i b hi
      have hlater := hzero (i + 1) b hi
      rwa [Nat.add_right_comm depth 1 i]
    rw [List.cons_append, chosen, hx]
    simp only [hxzero, if_true, ih hrest]
    rw [List.length_cons, Nat.add_assoc, Nat.add_comm 1]

theorem chosen_sameOrCut {limit : Limit} {outcome' : Nat → Expr → Except Error Number}
    {depth' : Nat} (branches : List (Branch Expr))
    (h : ∀ n e, limit.SameOrCut (outcome (depth + n) e) (outcome' (depth' + n) e)) :
    limit.SameOrCut (chosen outcome depth last branches)
      (chosen outcome' depth' last branches) := by
  induction branches generalizing depth depth' with
  | nil => exact h 0 last
  | cons b bs ih =>
    simp only [chosen]
    rcases h 1 b.condition with heq | ⟨hlimit, hcut⟩
    · rw [heq]
      cases outcome' (depth' + 1) b.condition with
      | error err => exact .refl limit _
      | ok x =>
        cases hx : x.isZero with
        | true =>
          have hdeeper : ∀ n e, limit.SameOrCut (outcome (depth + 1 + n) e)
              (outcome' (depth' + 1 + n) e) := by
            intro n e
            rw [Nat.add_assoc, Nat.add_assoc]
            exact h (1 + n) e
          simpa only [hx, if_true] using ih hdeeper
        | false => simpa only [hx, if_false, Bool.false_eq_true] using h 1 b.value
    · exact .inr ⟨hlimit, by rw [hcut]⟩

end Chosen

section Eval

variable {table : FunctionTable} {limit : Limit} {calls depth : Nat} {bindings : Bindings}
  {last : Expr}

theorem eval_chain (branches : List (Branch Expr)) :
    (chain last branches).eval (table.frame limit calls bindings) depth =
      chosen (Expr.eval (table.frame limit calls bindings)) depth last branches := by
  induction branches generalizing depth with
  | nil => rfl
  | cons b bs ih =>
    rw [chain, chosen]
    cases hallows : limit.allows depth with
    | false =>
      have hinner := Limit.not_allows_succ hallows
      rw [Expr.eval_of_not_allows hallows, Expr.eval_of_not_allows hinner]
    | true =>
      rw [Expr.eval_conditional hallows, ih]
      cases b.condition.eval (table.frame limit calls bindings) (depth + 1) with
      | error err => rfl
      | ok x => cases hx : x.isZero <;> simp [Number.isTrue, hx]

theorem chosen_too_deep {branches : List (Branch Expr)} (negative : Bool)
    (hzero : ∀ b ∈ branches, b.condition = .constant (.zero negative))
    (hdeep : limit.allows (depth + branches.length) = false) :
    chosen (Expr.eval (table.frame limit calls bindings)) depth last branches =
      .error .excessiveRecursion := by
  induction branches generalizing depth with
  | nil =>
    have hdeep : (table.frame limit calls bindings).limit.allows depth = false := hdeep
    exact Expr.eval_of_not_allows hdeep last
  | cons b bs ih =>
    obtain ⟨hb, hbs⟩ := List.forall_mem_cons.1 hzero
    rw [List.length_cons, Nat.add_comm bs.length 1, ← Nat.add_assoc] at hdeep
    rw [chosen, hb]
    cases hallows : limit.allows (depth + 1) with
    | false => rw [Expr.eval_of_not_allows hallows]
    | true =>
      have hvalue : Expr.eval (table.frame limit calls bindings) (depth + 1)
          (.constant (.zero negative)) = .ok (.zero negative) := by
        simp [Expr.eval, FunctionTable.frame, hallows]
      have hisZero : (Number.zero negative).isZero = true := by simp [Number.zero, Number.isZero]
      simp only [hvalue, hisZero, if_true]
      exact ih hbs hdeep

theorem eval_chain_sameOrCut (branches : List (Branch Expr)) :
    limit.SameOrCut ((chain last branches).eval (table.frame limit calls bindings) depth)
      (chosen (fun _ => Expr.eval (table.frame limit calls bindings) depth) depth last
        branches) := by
  rw [eval_chain]
  exact chosen_sameOrCut branches fun n e => Expr.eval_deeper (Nat.le_add_right depth n) e

end Eval

end Branch

/-- The text is a phrase that can stand beside a question mark or a colon, and it leaves no quote
open. -/
structure IsOperand (limit : Limit) (text : String) (e : Expr) : Prop where
  phrase : Phrase limit .logicalOr text.toList e
  closed : ¬ Scan.EndsInQuote text.toList

theorem IsStatement.operand {limit : Limit} {text : String} {e : Expr}
    (h : IsStatement limit text e) : IsOperand limit ("(" ++ text ++ ")") e := by
  have htext : ("(" ++ text ++ ")").toList = Expr.grouped text.toList := by simp [Expr.grouped]
  have hatom : Phrase limit .atom (Expr.grouped text.toList) e := .of_yields (h.yields_group [])
  exact ⟨htext ▸ hatom.of_rank_le (by decide), htext ▸ h.closed_group⟩

def Branch.IsWritten (limit : Limit) (b : Branch (Expr × String)) : Prop :=
  IsOperand limit b.condition.2 b.condition.1 ∧ IsOperand limit b.value.2 b.value.1

section Reading

variable {limit : Limit} {branches : List (Branch (Expr × String))} {last : Expr × String}

theorem IsOperand.yields {text : String} {e : Expr} (h : IsOperand limit text e)
    (us : List Char) :
    Scan.Yields text.toList (' ' :: us) fun ts => Derives limit 0 .logicalOr ts e :=
  h.phrase.yields h.closed (fun _ hn => hn) (by decide) us

theorem Branch.yields_text
    (hbranches : ∀ b ∈ branches, b.IsWritten limit)
    (hlast : Phrase limit .logicalOr last.2.toList last.1) :
    Scan.Yields (text last.2 (branches.map (map Prod.snd))).toList [] fun ts =>
      Derives limit 0 .condition ts (chain last.1 (branches.map (map Prod.fst))) := by
  induction branches with
  | nil => exact hlast.yields_end.mono fun ts hts => hts.of_rank_le (by decide)
  | cons b bs ih =>
    obtain ⟨⟨hcondition, hvalue⟩, hrest⟩ := List.forall_mem_cons.1 hbranches
    have htext : (text last.2 ((b :: bs).map (map Prod.snd))).toList =
        b.condition.2.toList ++ ' ' :: '?' :: ' ' :: (b.value.2.toList ++ ' ' :: ':' :: ' ' ::
          (text last.2 (bs.map (map Prod.snd))).toList) := by
      simp [text, map]
    rw [htext]
    exact .conditional hcondition.yields hvalue.yields (ih hrest)

theorem Branch.reading_text
    (hbranches : ∀ b ∈ branches, b.IsWritten limit)
    (hlast : Phrase limit .logicalOr last.2.toList last.1) :
    Reading.ofQueue limit (.ofLine (text last.2 (branches.map (map Prod.snd)))) =
      ⟨[chain last.1 (branches.map (map Prod.fst))], none⟩ :=
  Reading.ofQueue_of_yields ((yields_text hbranches hlast).mono fun ts hts =>
    hts.of_rank_le (by decide))

end Reading

theorem Run.outcome_of_reading [Stack] {source : String} {e : Expr} (table : FunctionTable)
    (hread : Reading.ofLine source = ⟨[e], none⟩) (hnone : e.definition? = none) :
    (Run.line table source).outcome = (table.evaluate Stack.nesting e).map fun x => [x] := by
  simp only [Run.line, hread, Run.reading, Run.statements,
    table.run_of_definition?_eq_none hnone]
  cases table.evaluate Stack.nesting e <;> rfl

theorem Branch.definition?_chain {branches : List (Branch Expr)} (hne : branches ≠ [])
    (last : Expr) : (chain last branches).definition? = none := by
  obtain ⟨b, bs, rfl⟩ := List.exists_cons_of_ne_nil hne
  rfl

/-- A line whose chain is too deep fails if all its conditions are zero. -/
theorem Branch.outcome_too_deep [Stack] {branches : List (Branch (Expr × String))}
    {last : Expr × String}
    (hbranches : ∀ b ∈ branches, b.IsWritten Stack.arguments)
    (hlast : Phrase Stack.arguments .logicalOr last.2.toList last.1) (negative : Bool)
    (hzero : ∀ b ∈ branches, b.condition.1 = .constant (.zero negative))
    (hdeep : Stack.nesting.allows (1 + branches.length) = false) (table : FunctionTable) :
    (Run.line table (text last.2 (branches.map (map Prod.snd)))).outcome =
      .error .excessiveRecursion := by
  have hne : branches.map (map Prod.fst) ≠ [] := by
    intro hnil
    have hone : Stack.nesting.allows (1 + branches.length) = true := by
      rw [List.map_eq_nil_iff.1 hnil]
      exact Stack.nesting_one
    rw [hdeep] at hone
    cases hone
  have hconditions : ∀ b ∈ branches.map (map Prod.fst),
      b.condition = .constant (.zero negative) := by
    simpa [map] using hzero
  have hcut : table.evaluate Stack.nesting (chain last.1 (branches.map (map Prod.fst))) =
      .error .excessiveRecursion := by
    have hchain : table.evaluate Stack.nesting (chain last.1 (branches.map (map Prod.fst))) =
        chosen (Expr.eval (table.frame Stack.nesting callCeiling [])) 1 last.1
          (branches.map (map Prod.fst)) := eval_chain _
    rw [hchain]
    exact chosen_too_deep negative hconditions (by simpa using hdeep)
  rw [Run.outcome_of_reading table (reading_text hbranches hlast) (definition?_chain hne _), hcut]
  rfl

/-- The conditionals of a chain stand inside of one another, and the chain has the value of the
first condition that is not zero, or the first error on the way there. Only being too deep adds
to this, and what comes behind does not matter for it either. -/
theorem conditional_chain [Stack] {limit : Limit} {branches : List (Branch (Expr × String))}
    {last : Expr × String} (hne : branches ≠ [])
    (hbranches : ∀ b ∈ branches, b.IsWritten limit)
    (hlast : Phrase limit .logicalOr last.2.toList last.1) :
    let source := Branch.text last.2 (branches.map (Branch.map Prod.snd))
    let parts := branches.map (Branch.map Prod.fst)
    let chain := Branch.chain last.1 parts
    Reading.ofQueue limit (.ofLine source) = ⟨[chain], none⟩ ∧
    (∀ (table : FunctionTable) (bound : Limit) (calls : Nat) (bindings : Bindings) (depth : Nat),
      let outcome := Expr.eval (table.frame bound calls bindings)
      outcome depth chain = Branch.chosen outcome depth last.1 parts ∧
      bound.SameOrCut (outcome depth chain)
        (Branch.chosen (fun _ => outcome depth) depth last.1 parts) ∧
      ∀ before b after, parts = before ++ b :: after →
        (∀ i c, before[i]? = some c →
          ∃ x, outcome (depth + i + 1) c.condition = .ok x ∧ x.isZero = true) →
        let inner := depth + before.length + 1
        (∀ err, outcome inner b.condition = .error err → outcome depth chain = .error err) ∧
        ∀ x, outcome inner b.condition = .ok x → outcome depth chain =
          if x.isZero then outcome inner (Branch.chain last.1 after) else outcome inner b.value) ∧
    (limit = Stack.arguments → ∀ table : FunctionTable,
      (Run.line table source).outcome = (table.evaluate Stack.nesting chain).map fun x => [x]) := by
  intro source parts chain
  have hread := Branch.reading_text hbranches hlast
  refine ⟨hread, ?_, ?_⟩
  · intro table bound calls bindings depth outcome
    refine ⟨Branch.eval_chain parts, Branch.eval_chain_sameOrCut parts, ?_⟩
    intro before b after hparts hzero inner
    have hchain : outcome depth chain = Branch.chosen outcome (depth + before.length) last.1
        (b :: after) := by
      simp only [outcome, chain, hparts]
      rw [Branch.eval_chain, Branch.chosen_append _ hzero]
    rw [hchain, Branch.chosen]
    refine ⟨fun err herr => by rw [herr], fun x hx => ?_⟩
    rw [hx]
    simp only [outcome, inner, Branch.eval_chain]
  · rintro rfl table
    exact Run.outcome_of_reading table hread (Branch.definition?_chain (by simpa [parts]) _)

theorem conditional_chain_second :
    let x : Expr := .call "x" []
    let y : Expr := .call "y" []
    let d : Expr := .call "d" []
    let chain : Expr := .operator .conditional [x, y, .operator .conditional
      [.operator .conditional [x, d, y], y, d]]
    let outcome := Expr.eval
      (FunctionTable.empty.frame none callCeiling [("x", .zero false), ("y", .nan)])
    Reading.ofLine "(x) ? (y) : (x ? d : y) ? (y) : \"d" = ⟨[chain], none⟩ ∧
      outcome 1 chain = .ok .nan ∧ outcome 1 d = .error (.unknownName "d") := by
  intro x y d chain outcome
  let third : Expr := .operator .conditional [x, d, y]
  have hx : IsStatement Stack.arguments "x" x := ⟨rfl, by decide, by decide +kernel⟩
  have hy : IsStatement Stack.arguments "y" y := ⟨rfl, by decide, by decide +kernel⟩
  have hthird : IsStatement Stack.arguments "x ? d : y" third :=
    ⟨rfl, by decide, by decide +kernel⟩
  let branches : List (Branch (Expr × String)) :=
    [⟨(x, "(x)"), (y, "(y)")⟩, ⟨(third, "(x ? d : y)"), (y, "(y)")⟩]
  have hbranches : ∀ b ∈ branches, b.IsWritten Stack.arguments := by
    intro b hb
    rcases (by simpa [branches] using hb : b = _ ∨ b = _) with rfl | rfl
    · exact ⟨hx.operand, hy.operand⟩
    · exact ⟨hthird.operand, hy.operand⟩
  have hname : Named "d" [] d := .user (by decide)
  have htext : "\"d".toList = '\x22' :: "d".toList := by decide
  have hopen : Phrase Stack.arguments .atom "\"d".toList d :=
    htext ▸ .unended rfl (by decide) (by decide) hname
  have hlast : Phrase Stack.arguments .logicalOr (d, "\"d").2.toList (d, "\"d").1 :=
    hopen.of_rank_le (by decide)
  obtain ⟨hread, hvalue, -⟩ := conditional_chain (by simp [branches]) hbranches hlast
  obtain ⟨-, -, hsplit⟩ := hvalue .empty none callCeiling [("x", .zero false), ("y", .nan)] 1
  have hxValue : ∀ depth, outcome depth x = .ok (.zero false) := by
    simp [outcome, x, Expr.eval, FunctionTable.frame, Limit.allows_none, Text.lookup?]
  have hyValue : ∀ depth, outcome depth y = .ok .nan := by
    simp [outcome, y, Expr.eval, FunctionTable.frame, Limit.allows_none, Text.lookup?]
  have hthirdValue : outcome 3 third = .ok .nan := by
    refine (Expr.eval_conditional (Limit.allows_none 3)).trans ?_
    have hxInner : Expr.eval _ (3 + 1) x = .ok (.zero false) := hxValue 4
    have hyInner : Expr.eval _ (3 + 1) y = .ok .nan := hyValue 4
    rw [hxInner, hyInner]
    rfl
  have hzero : ∀ i c, [(⟨x, y⟩ : Branch Expr)][i]? = some c →
      ∃ v, outcome (1 + i + 1) c.condition = .ok v ∧ v.isZero = true := by
    intro i c hc
    cases i with
    | zero =>
      cases hc
      exact ⟨_, hxValue 2, rfl⟩
    | succ i => cases hc
  obtain ⟨-, hpicked⟩ := hsplit [⟨x, y⟩] ⟨third, y⟩ [] rfl hzero
  refine ⟨hread, (hpicked .nan hthirdValue).trans (hyValue 3), ?_⟩
  simp [outcome, d, Expr.eval, FunctionTable.frame, Limit.allows_none, Text.lookup?,
    FunctionTable.find?, FunctionTable.empty]

/-- A quote that is left open takes the signs behind it into a name, and a chain can be too deep
although all its parts have values. -/
theorem conditional_chain_exceptions :
    let zero : Expr := .constant (.zero false)
    let one : Expr := .constant (.ofInt 1)
    let branches : List (Branch (Expr × String)) :=
      List.replicate 12000 ⟨(zero, "0"), (zero, "0")⟩
    let parts := branches.map (Branch.map Prod.fst)
    (IsOperand Stack.arguments "0" zero ∧
      Phrase Stack.arguments .logicalOr "1".toList one ∧
      Branch.chosen (fun _ => FunctionTable.empty.evaluate Stack.nesting) 1 one parts =
        .ok (.ofInt 1) ∧
      (Run.line .empty (Branch.text "1" (branches.map (Branch.map Prod.snd)))).outcome =
        .error .excessiveRecursion) ∧
    Phrase Stack.arguments .logicalOr "'x".toList (.call "x" []) ∧
      Reading.ofLine (Branch.text "2" [⟨"'x", "1"⟩]) = ⟨[.call "x ? 1 : 2" []], none⟩ := by
  intro zero one branches parts
  have hdigit : ∀ c value, ∀ n : Numeral, n.chars = [c] → n.decimal.nearest = value →
      Phrase Stack.arguments .logicalOr [c] (.constant value) := by
    rintro c value n hchars rfl
    exact hchars ▸ (Phrase.numeral n).of_rank_le (by decide)
  have hzero : Phrase Stack.arguments .logicalOr "0".toList zero :=
    hdigit '0' _ ⟨['0'], none, none, by simp, by simp⟩ rfl (by decide +kernel)
  have hone : Phrase Stack.arguments .logicalOr "1".toList one :=
    hdigit '1' _ ⟨['1'], none, none, by simp, by simp⟩ rfl (by decide +kernel)
  have hoperand : IsOperand Stack.arguments "0" zero := ⟨hzero, by decide +kernel⟩
  have hname : Named "x" [] (.call "x" []) := .user (by decide)
  have htext : "'x".toList = '\x27' :: "x".toList := by decide
  have hopen : Phrase Stack.arguments .atom "'x".toList (.call "x" []) :=
    htext ▸ .unended rfl (by decide) (by decide) hname
  have hsame : ∀ b ∈ branches, b = ⟨(zero, "0"), (zero, "0")⟩ :=
    fun b hb => List.eq_of_mem_replicate hb
  have hlength : branches.length = 12000 := List.length_replicate
  have hlast : Phrase Stack.arguments .logicalOr (one, "1").2.toList (one, "1").1 := hone
  refine ⟨⟨hoperand, hone, ?_, ?_⟩, hopen.of_rank_le (by decide), rfl⟩
  · have hconditions : ∀ (i : Nat) (b : Branch Expr), parts[i]? = some b →
        ∃ x, FunctionTable.empty.evaluate Stack.nesting b.condition = .ok x ∧ x.isZero = true := by
      intro i b hb
      obtain ⟨c, hc, rfl⟩ := List.mem_map.1 (List.mem_of_getElem? hb)
      rw [hsame c hc]
      exact ⟨.zero false, rfl, by decide⟩
    rw [← List.append_nil parts, Branch.chosen_append [] hconditions, Branch.chosen]
    rfl
  · refine Branch.outcome_too_deep (fun b hb => ?_) hlast false (fun b hb => ?_) ?_ .empty
    · rw [hsame b hb]
      exact ⟨hoperand, hoperand⟩
    · rw [hsame b hb]
    · rw [hlength]
      rfl

end Reckon
