import Reckon.Expr.Printer
import Reckon.Proofs.Number.Display
import Reckon.Proofs.Token.Spelling
/-!
The function form can be read in one way only, as long as the names in it look like names: without
parentheses and commas, and not like numerals (`Expr.Plain`). Such an expression is told from
its function form whatever text comes behind it (`Expr.Plain.delimited`).
-/
set_option autoImplicit false

namespace Reckon

def Operator.nodes : List Operator :=
  .negate :: .conditional :: table.filter fun op => op != .openParen && op != .closeParen

namespace Expr

def marks : List Char := ['(', ')', ',']

/-- No mark is in the name, and it does not start like a numeral. -/
structure IsBare (name : List Char) : Prop where
  unmarked : ∀ c ∈ name, c ∉ marks
  starts : ∃ c ∈ name.head?, Lexeme.startsNumber c = false

/-- All constants are finite numbers without a minus sign, all operators have their operands,
and all other names are bare and those of no operator. -/
inductive Plain : Expr → Prop where
  | constant {value : Number} :
      value.isFinite = true → value.isNegative = false → Plain (.constant value)
  | operator {op : Operator} {operands : List Expr} :
      op ∈ Operator.nodes → operands.length = op.arity → (∀ e ∈ operands, e.Plain) →
      Plain (.operator op operands)
  | call {name : String} {operands : List Expr} :
      IsBare name.toList → (∀ op ∈ Operator.nodes, op.name ≠ name) → (∀ e ∈ operands, e.Plain) →
      Plain (.call name operands)

def label : Expr → List Char
  | .constant value => value.display
  | .operator op _ => op.name.toList
  | .call name _ => name.toList

def operands : Expr → List Expr
  | .constant _ => []
  | .operator _ operands => operands
  | .call _ operands => operands

theorem render_eq (e : Expr) : e.render = e.label ++ renderOperands e.operands := by
  cases e with
  | constant value => simp [render, label, operands, renderOperands]
  | operator op operands => rfl
  | call name operands => rfl

section Labels

variable {value value' : Number} {op op' : Operator} {name : List Char} {c : Char}

theorem not_mem_marks (h : c ∈ ['.', 'e', '-', '+'] ∨ c.isDigit = true) : c ∉ marks := by
  intro hc
  rcases (by simpa [marks] using hc : c = '(' ∨ c = ')' ∨ c = ',') with rfl | rfl | rfl <;>
    exact absurd h (by decide)

theorem display_unmarked (hfinite : value.isFinite = true) (hsign : value.isNegative = false) :
    (∀ c ∈ value.display, c ∉ marks) ∧
      ∃ c ∈ value.display.head?, Lexeme.startsNumber c = true := by
  match value, hfinite, hsign with
  | .finite false units h, _, _ =>
    obtain ⟨n, tail, hdisplay, htail⟩ := Number.exists_parts_display h
    obtain ⟨c, cs, hcons, hc⟩ := n.exists_cons
    rw [hdisplay]
    refine ⟨fun c hc => not_mem_marks ?_, c, ?_, hc⟩
    · rcases List.mem_append.1 hc with hc | hc
      · exact .inr (Numeral.isDigit_of_mem_whole hc)
      · rcases List.mem_append.1 hc with hc | hc
        · exact (Numeral.mem_pointChars hc).imp_left fun heq => by simp [heq]
        · exact (htail c hc).imp_left (List.mem_cons_of_mem '.')
    · rw [← List.append_assoc, hcons]
      rfl

theorem display_inj (hfinite : value.isFinite = true) (hsign : value.isNegative = false)
    (hfinite' : value'.isFinite = true) (hsign' : value'.isNegative = false)
    (h : value.display = value'.display) : value = value' := by
  match value, value', hfinite, hsign, hfinite', hsign' with
  | .finite false _ _, .finite false _ _, _, _, _, _ => exact Number.display_injective h

theorem display_ne_bare (hfinite : value.isFinite = true) (hsign : value.isNegative = false)
    (hname : IsBare name) : value.display ≠ name := by
  rintro rfl
  obtain ⟨c, hc, hnumber⟩ := (display_unmarked hfinite hsign).2
  obtain ⟨d, hd, hnone⟩ := hname.starts
  rw [Option.mem_unique hc hd, hnone] at hnumber
  cases hnumber

theorem bare_of_mem_nodes (hop : op ∈ Operator.nodes) : IsBare op.name.toList := by
  have hall : (Operator.nodes.all fun op => op.name.toList.all (fun c => !marks.contains c) &&
      op.name.toList.head?.any fun c => !Lexeme.startsNumber c) = true := by decide +kernel
  have hname := List.all_eq_true.1 hall op hop
  simp only [Bool.and_eq_true, List.all_eq_true, Option.any_eq_true] at hname
  exact ⟨fun c hc => by simpa using hname.1 c hc, by simpa using hname.2⟩

theorem eq_of_name_of_arity (hop : op ∈ Operator.nodes) (hop' : op' ∈ Operator.nodes)
    (hname : op.name = op'.name) (harity : op.arity = op'.arity) : op = op' := by
  have hall : (Operator.nodes.all fun op => Operator.nodes.all fun op' =>
      op.name != op'.name || op.arity != op'.arity || op == op') = true := by decide +kernel
  have heq := List.all_eq_true.1 (List.all_eq_true.1 hall op hop) op' hop'
  simpa [hname, harity] using heq

end Labels

variable {e e' : Expr} {es es' : List Expr} {rest rest' : List Char}

namespace Plain

theorem operands_plain (h : e.Plain) : ∀ a ∈ e.operands, a.Plain := by
  cases h with
  | constant => exact nofun
  | operator _ _ hall => exact hall
  | call _ _ hall => exact hall

theorem label_unmarked (h : e.Plain) : ∀ c ∈ e.label, c ∉ marks := by
  cases h with
  | constant hfinite hsign => exact (display_unmarked hfinite hsign).1
  | operator hop _ _ => exact (bare_of_mem_nodes hop).unmarked
  | call hname _ _ => exact hname.unmarked

/-- A node is known from its label and its operands. -/
theorem eq_of_label (h : e.Plain) (h' : e'.Plain) (hlabel : e.label = e'.label)
    (hoperands : e.operands = e'.operands) : e = e' := by
  cases h with
  | constant hfinite hsign =>
    cases h' with
    | constant hfinite' hsign' =>
      exact congrArg Expr.constant (display_inj hfinite hsign hfinite' hsign' hlabel)
    | operator hop' => exact absurd hlabel (display_ne_bare hfinite hsign (bare_of_mem_nodes hop'))
    | call hname' => exact absurd hlabel (display_ne_bare hfinite hsign hname')
  | operator hop hlen =>
    cases h' with
    | constant hfinite' hsign' =>
      exact absurd hlabel.symm (display_ne_bare hfinite' hsign' (bare_of_mem_nodes hop))
    | operator hop' hlen' =>
      obtain rfl := hoperands
      obtain rfl := eq_of_name_of_arity hop hop' (String.toList_inj.1 hlabel) (hlen ▸ hlen')
      rfl
    | call _ hnone' => exact absurd (String.toList_inj.1 hlabel) (hnone' _ hop)
  | call hname hnone =>
    cases h' with
    | constant hfinite' hsign' =>
      exact absurd hlabel.symm (display_ne_bare hfinite' hsign' hname)
    | operator hop' => exact absurd (String.toList_inj.1 hlabel.symm) (hnone _ hop')
    | call => exact congrArg₂ Expr.call (String.toList_inj.1 hlabel) hoperands

end Plain

def Ends (rest : List Char) : Prop := ∀ c ∈ rest.head?, c ∈ [')', ',']

/-- The function form tells the expression, and where its text ends. -/
def Delimited (e : Expr) : Prop :=
  ∀ e' rest rest', e'.Plain → Ends rest → Ends rest' →
    e.render ++ rest = e'.render ++ rest' → e = e' ∧ rest = rest'

theorem append_inj_of_head {p : Char → Prop} {cs ds : List Char} (hcs : ∀ c ∈ cs, ¬ p c)
    (hds : ∀ c ∈ ds, ¬ p c) (hrest : ∀ c ∈ rest.head?, p c) (hrest' : ∀ c ∈ rest'.head?, p c)
    (h : cs ++ rest = ds ++ rest') : cs = ds ∧ rest = rest' := by
  induction cs generalizing ds with
  | nil =>
    cases ds with
    | nil => exact ⟨rfl, h⟩
    | cons d ds =>
      have hhead : rest.head? = some d := congrArg List.head? h
      exact absurd (hrest d hhead) (hds d (List.mem_cons_self ..))
  | cons c cs ih =>
    cases ds with
    | nil =>
      have hhead : rest'.head? = some c := congrArg List.head? h.symm
      exact absurd (hrest' c hhead) (hcs c (List.mem_cons_self ..))
    | cons d ds =>
      obtain ⟨rfl, htail⟩ := List.cons.inj h
      obtain ⟨-, hcs⟩ := List.forall_mem_cons.1 hcs
      obtain ⟨-, hds⟩ := List.forall_mem_cons.1 hds
      obtain ⟨rfl, hrest⟩ := ih hcs hds htail
      exact ⟨rfl, hrest⟩

theorem ends_renderFurther (es : List Expr) (rest : List Char) :
    Ends (renderFurther es ++ rest) := by
  cases es <;> simp [Ends, renderFurther]

theorem renderFurther_inj (hes : ∀ e ∈ es, e.Delimited) (hes' : ∀ e ∈ es', e.Plain)
    (h : renderFurther es ++ rest = renderFurther es' ++ rest') : es = es' ∧ rest = rest' := by
  induction es generalizing es' with
  | nil =>
    cases es' with
    | nil => exact ⟨rfl, (List.cons.inj h).2⟩
    | cons e' es' => cases (List.cons.inj h).1
  | cons e es ih =>
    cases es' with
    | nil => cases (List.cons.inj h).1
    | cons e' es' =>
      obtain ⟨he, hfurther⟩ := List.forall_mem_cons.1 hes
      obtain ⟨he', hfurther'⟩ := List.forall_mem_cons.1 hes'
      have htail : e.render ++ (renderFurther es ++ rest) =
          e'.render ++ (renderFurther es' ++ rest') := by simpa [renderFurther] using h
      obtain ⟨rfl, hsame⟩ := he e' _ _ he' (ends_renderFurther es rest)
        (ends_renderFurther es' rest') htail
      obtain ⟨rfl, hrest⟩ := ih hfurther hfurther' hsame
      exact ⟨rfl, hrest⟩

theorem renderOperands_inj (hes : ∀ e ∈ es, e.Delimited) (hes' : ∀ e ∈ es', e.Plain)
    (hrest : Ends rest) (hrest' : Ends rest')
    (h : renderOperands es ++ rest = renderOperands es' ++ rest') : es = es' ∧ rest = rest' := by
  cases es with
  | nil =>
    cases es' with
    | nil => exact ⟨rfl, h⟩
    | cons e' es' =>
      have hhead : rest.head? = some '(' := congrArg List.head? h
      exact absurd (hrest _ hhead) (by decide)
  | cons e es =>
    cases es' with
    | nil =>
      have hhead : rest'.head? = some '(' := congrArg List.head? h.symm
      exact absurd (hrest' _ hhead) (by decide)
    | cons e' es' =>
      -- But for the first character these are further operands.
      have hfurther : renderFurther (e :: es) ++ rest = renderFurther (e' :: es') ++ rest' :=
        congrArg (',' :: ·) (List.cons.inj h).2
      exact renderFurther_inj hes hes' hfurther

theorem head_renderOperands (hrest : Ends rest) :
    ∀ c ∈ (renderOperands es ++ rest).head?, c ∈ marks := by
  cases es with
  | nil => exact fun c hc => List.mem_cons_of_mem '(' (hrest c hc)
  | cons e es =>
    intro c hc
    cases hc
    decide

namespace Plain

theorem delimited_of_operands (h : e.Plain) (hoperands : ∀ a ∈ e.operands, a.Delimited) :
    e.Delimited := by
  intro e' rest rest' h' hrest hrest' heq
  rw [render_eq, render_eq, List.append_assoc, List.append_assoc] at heq
  obtain ⟨hlabel, htail⟩ := append_inj_of_head h.label_unmarked h'.label_unmarked
    (head_renderOperands hrest) (head_renderOperands hrest') heq
  obtain ⟨hsame, hrest⟩ := renderOperands_inj hoperands h'.operands_plain hrest hrest' htail
  exact ⟨h.eq_of_label h' hlabel hsame, hrest⟩

theorem delimited (h : e.Plain) : e.Delimited := by
  induction h with
  | constant hfinite hsign => exact (Plain.constant hfinite hsign).delimited_of_operands nofun
  | operator hop hlen hall ih => exact (Plain.operator hop hlen hall).delimited_of_operands ih
  | call hname hnone hall ih => exact (Plain.call hname hnone hall).delimited_of_operands ih

theorem render_inj (h : e.Plain) (h' : e'.Plain) (heq : e.render = e'.render) : e = e' :=
  (h.delimited e' [] [] h' nofun nofun (congrArg (· ++ []) heq)).1

end Plain

end Expr

end Reckon
