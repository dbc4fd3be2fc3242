import Reckon.Proofs.Session.History
import Reckon.Proofs.Statement.Naming
import Reckon.Proofs.Statement.Phrase
import Reckon.Proofs.Statement.Unquoted
set_option autoImplicit false

namespace Reckon

def Lexeme.IsWord : List Char → Prop
  | [] => False
  | c :: cs => startsWord c = true ∧ ∀ d ∈ cs, continuesWord d = true

structure IsBareword (name : String) : Prop where
  word : Lexeme.IsWord name.toList
  user : IsUserName name

variable {name text left : String} {rest : List Char} {limit : Limit} {depth : Nat} {e : Expr}

theorem Lexeme.IsWord.isWord {cs : List Char} (h : IsWord cs) : Operator.isWord cs = true := by
  cases cs with
  | nil => cases h
  | cons c cs =>
    obtain ⟨hstart, hall⟩ := h
    have hblank : isBlank c = false := by
      refine Bool.eq_false_iff.2 fun hblank => ?_
      have hender : c ∈ enders :=
        List.mem_cons_of_mem _ (List.mem_cons_of_mem _ (isBlank_iff.1 hblank))
      rw [startsWord_eq_false (continuesWord_ender hender)] at hstart
      cases hstart
    simpa [Operator.isWord, hblank, startsNumber_of_startsWord hstart, hstart] using hall

namespace IsBareword

theorem ne_comma (h : IsBareword name) : name ≠ "," := by
  rintro rfl
  exact absurd h.word.1 (by decide)

theorem yields_word (h : IsBareword name) {mark : Char} (hmark : mark ∈ '(' :: Lexeme.enders)
    (us : List Char) :
    Scan.Yields name.toList (mark :: us) (Token.Single .text name.toList) :=
  .word h.word.isWord (Lexeme.breaks_cons hmark us)

theorem yields_parameter (h : IsBareword name) {mark : Char} (hmark : mark ∈ [',', ')'])
    (us : List Char) :
    Scan.Yields name.toList (mark :: us) fun ts =>
      Derives limit depth .assign ts (.call name []) := by
  have hender := List.mem_cons_of_mem '(' (Lexeme.mem_enders_of_mark hmark)
  exact (Scan.Yields.bareName (h.yields_word hender us) h.ne_comma (.user h.user)).mono
    fun ts hts => hts.of_rank_le (by decide)

end IsBareword

theorem Scan.Yields.emptyCall {spelled : List Char}
    (hspelled : ∀ us, Yields spelled ('(' :: us) (Token.Single .text name.toList))
    (hne : name ≠ ",") (he : Named name [] e) :
    Yields (spelled ++ ['(', ')']) rest fun ts => Derives limit depth .atom ts e := by
  have hlist : Yields (['('] ++ [')']) rest fun ts => ∃ o c, ts = [o, c] ∧
      o.kind = .operator .openParen ∧ c.kind = .operator .closeParen := by
    refine append openParen closeParen ?_
    rintro _ _ ⟨o, rfl, ho, -⟩ ⟨c, rfl, hc, -⟩
    exact ⟨o, c, rfl, ho, hc⟩
  refine append (hspelled _) hlist ?_
  rintro _ _ ⟨t, rfl, hkind, htext⟩ ⟨o, c, rfl, ho, hc⟩
  rw [String.ofList_toList] at htext
  subst htext
  exact .bareCall ⟨hkind, hne⟩ ho hc he

theorem Expr.intercalate_blank (text : List Char) (texts : List (List Char)) :
    [',', ' '].intercalate (text :: texts) =
      [','].intercalate (text :: texts.map fun text => ' ' :: text) := by
  induction texts generalizing text with
  | nil => rfl
  | cons next texts ih =>
    rw [List.map_cons, List.intercalate_cons_cons, List.intercalate_cons_cons, ih next]
    cases texts <;> simp

namespace Definition

variable {d : Definition}

theorem yields_signature (hnames : ∀ n ∈ d.name :: d.formula.parameters, IsBareword n)
    (hlimit : limit.allows 1 = true) (rest : List Char) :
    Scan.Yields (d.formula.signature d.name).toList rest fun ts => Derives limit 0 .atom ts
      (.call d.name (d.formula.parameters.map fun p => .call p [])) := by
  obtain ⟨name, parameters, body⟩ := d
  obtain ⟨hname, hparameters⟩ := List.forall_mem_cons.1 hnames
  have hspelled := fun us => hname.yields_word (List.mem_cons_self ..) us
  cases parameters with
  | nil =>
    have htext : (Formula.signature ⟨[], body⟩ name).toList = name.toList ++ ['(', ')'] := by
      simp [Formula.signature]
    rw [htext]
    exact .emptyCall hspelled hname.ne_comma (.user hname.user)
  | cons p ps =>
    let spaced : String → Expr × List Char := fun q => (.call q [], ' ' :: q.toList)
    have htext : (Formula.signature ⟨p :: ps, body⟩ name).toList = name.toList ++
        Expr.argumentList (((.call p [], p.toList) :: ps.map spaced).map Prod.snd) := by
      simp [Formula.signature, Expr.argumentList, Expr.grouped, Expr.intercalate_blank, spaced,
        Function.comp_def]
    have hvalues : (p :: ps).map (fun q => Expr.call q []) =
        ((.call p [], p.toList) :: ps.map spaced).map Prod.fst := by
      simp [spaced]
    have hall : ∀ q ∈ (.call p [], p.toList) :: ps.map spaced, ∀ mark ∈ [',', ')'], ∀ us,
        Scan.Yields q.2 (mark :: us) fun ts => Derives limit 1 .assign ts q.1 := by
      intro q hq mark hmark us
      rcases List.mem_cons.1 hq with rfl | hq
      · exact (hparameters p (by simp)).yields_parameter hmark us
      · obtain ⟨r, hr, rfl⟩ := List.mem_map.1 hq
        exact .blank (by decide) ((hparameters r (by simp [hr])).yields_parameter hmark us)
    rw [htext, hvalues]
    exact .call hspelled hname.ne_comma hlimit hall (.user hname.user)

/-- The ways to write what is defined: without parameters the parentheses are optional. -/
def IsWritten (d : Definition) (left : String) : Prop :=
  left = d.formula.signature d.name ∨ d.formula.parameters = [] ∧ left = d.name

theorem IsWritten.yields (hleft : d.IsWritten left)
    (hnames : ∀ n ∈ d.name :: d.formula.parameters, IsBareword n)
    (hlimit : limit.allows 1 = true) (rest : List Char) :
    Scan.Yields left.toList (' ' :: rest) fun ts => Derives limit 0 .atom ts
      (.call d.name (d.formula.parameters.map fun p => .call p [])) := by
  rcases hleft with rfl | ⟨hnone, rfl⟩
  · exact yields_signature hnames hlimit _
  · have hname := hnames d.name (List.mem_cons_self ..)
    rw [hnone]
    exact .bareName (hname.yields_word (by decide) rest) hname.ne_comma (.user hname.user)

theorem reading_line (hleft : d.IsWritten left)
    (hnames : ∀ n ∈ d.name :: d.formula.parameters, IsBareword n)
    (hlimit : limit.allows 1 = true) (hbody : Phrase limit .assign text.toList d.formula.body) :
    Reading.ofQueue limit (.ofLine (left ++ " = " ++ text)) = ⟨[d.statement], none⟩ := by
  let j : Join := ⟨.assign, .assign, .condition, .assign⟩
  have hj : j ∈ Join.all := by decide
  have hname := hleft.yields hnames hlimit (j.sign.name.toList ++ ' ' :: (text.toList ++ []))
  have htarget := hname.mono fun ts hts => hts.of_rank_le (Join.left_le_atom j hj)
  have hwhole := Scan.Yields.join hj htarget hbody.yields_end (.plain nofun)
  have htext : (left ++ " = " ++ text).toList =
      left.toList ++ ' ' :: (j.sign.name.toList ++ ' ' :: text.toList) := by
    have hsign : j.sign.name.toList = ['='] := by decide
    simp [hsign]
  exact Reading.ofQueue_of_yields (htext ▸ hwhole)

end Definition

theorem FunctionTable.run_statement [Stack] (table : FunctionTable) (d : Definition) :
    table.run d.statement = .ok (table.adopt d) := by
  rw [run, Expr.definition?_eq_some_iff.2 rfl]

/-- A line that gives a name, its parameters and a body makes that definition, of which nothing
is evaluated. Nothing but the equation of a definition makes one. -/
theorem definition_line [Stack] :
    (∀ (table : FunctionTable) (d : Definition) (left text : String),
      (∀ n ∈ d.name :: d.formula.parameters, IsBareword n) → d.IsWritten left →
      IsStatement Stack.arguments text d.formula.body →
      let run := Run.line table (left ++ " = " ++ text)
      run.completed = [(d.statement, .defined d (table.find? d.name).isSome)] ∧
        run.outcome = .ok [] ∧
        ∀ other, run.table.find? other =
          if d.name = other then some d.formula else table.find? other) ∧
    (∀ e d, Expr.definition? e = some d ↔ e = .operator .assign
      [.call d.name (d.formula.parameters.map fun p => .call p []), d.formula.body]) ∧
    ∀ e, (∀ d, e ≠ Definition.statement d) → e.definition? = none ∧
      ∀ table : FunctionTable, table.run e =
        (table.evaluate Stack.nesting e).map fun x => (.value x, table) := by
  refine ⟨?_, fun e d => Expr.definition?_eq_some_iff, ?_⟩
  · intro table d left text hnames hleft hbody run
    have hread := Definition.reading_line hleft hnames Stack.arguments_one hbody.phrase
    have hrun : run = ⟨[(d.statement, .defined d (table.find? d.name).isSome)], none,
        table.define d.name d.formula⟩ := by
      simp only [run, Run.line, Reading.ofLine, hread, Run.reading, Run.statements,
        FunctionTable.run_statement]
      rfl
    rw [hrun]
    exact ⟨rfl, rfl, table.find?_define d.name d.formula⟩
  · intro e he
    have hnone : e.definition? = none :=
      Option.eq_none_iff_forall_ne_some.2 fun d hd => he d (Expr.definition?_eq_some_iff.1 hd)
    exact ⟨hnone, fun table => table.run_of_definition?_eq_none hnone⟩

/-- The body is a choice between two names, on the left of one more sign of equality. With
a number for its left side an equation defines nothing. -/
theorem definition_line_nested :
    let body : Expr := .operator .assign
      [.operator .conditional [.call "x" [], .call "y" [], .call "g" []], .call "f" [.call "y" []]]
    let run := Run.line .empty "f(x, y) = x ? y : g = f(y)"
    (IsBareword "f" ∧ IsBareword "x" ∧ IsBareword "y") ∧
      IsStatement Stack.arguments "x ? y : g = f(y)" body ∧
      run.outcome = .ok [] ∧ run.table.find? "f" = some ⟨["x", "y"], body⟩ ∧
      (Expr.operator .assign [.constant .nan, body]).definition? = none := by
  intro body run
  let d : Definition := ⟨"f", ⟨["x", "y"], body⟩⟩
  have hf : IsBareword "f" := ⟨⟨by decide, nofun⟩, by decide⟩
  have hx : IsBareword "x" := ⟨⟨by decide, nofun⟩, by decide⟩
  have hy : IsBareword "y" := ⟨⟨by decide, nofun⟩, by decide⟩
  have hnames : ∀ n ∈ d.name :: d.formula.parameters, IsBareword n := by
    simpa [d] using ⟨hf, hx, hy⟩
  have hbody : IsStatement Stack.arguments "x ? y : g = f(y)" body :=
    ⟨rfl, by decide, by decide +kernel⟩
  have hleft : d.IsWritten "f(x, y)" := .inl (by decide)
  obtain ⟨-, houtcome, hfind⟩ := definition_line.1 .empty d "f(x, y)" "x ? y : g = f(y)" hnames
    hleft hbody
  have hother : ∀ d : Definition, .operator .assign [.constant .nan, body] ≠ d.statement := by
    simp [Definition.statement]
  exact ⟨⟨hf, hx, hy⟩, hbody, houtcome, hfind "f", (definition_line.2.2 _ hother).1⟩

end Reckon
