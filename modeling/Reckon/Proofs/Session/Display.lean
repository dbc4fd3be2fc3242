import Reckon.Proofs.Number.Display
import Reckon.Proofs.Statement.Writing
import Reckon.Session
set_option autoImplicit false

namespace Reckon

namespace Lexeme

theorem decimalRun_plus (n : Numeral) (ds : List Char) :
    decimalRun (n.whole ++ (n.pointChars ++ 'e' :: '+' :: ds)) =
      n.whole ++ (n.pointChars ++ ['e']) := by
  rw [decimalRun_append fun c => startsNumber_of_mem_whole,
    decimalRun_append fun c => startsNumber_of_mem_pointChars]
  rfl

theorem number_plus (n : Numeral) (ds : List Char) (start : Nat) :
    number start (n.whole ++ (n.pointChars ++ 'e' :: '+' :: ds)) =
      .error (.invalidConstant (String.ofList (n.whole ++ (n.pointChars ++ ['e']))) start) := by
  have hrun := decimalRun_plus n ds
  have hmarker : ∀ m ∈ ['x', 'b'],
      ¬ ['0', m] <+: n.whole ++ (n.pointChars ++ 'e' :: '+' :: ds) := by
    rintro m hm ⟨us, heq⟩
    rw [← heq, List.cons_append, List.singleton_append, decimalRun_marker hm] at hrun
    have hlast := congrArg List.getLast? hrun
    simp at hlast
  have hread : Decimal.read? (n.whole ++ (n.pointChars ++ ['e'])) = none := by
    rw [n.read?_append (by simp)]
    rfl
  rw [number_eq_decimal (hmarker 'x' (by decide)) (hmarker 'b' (by decide)), decimal, hrun]
  simp only [hread]

end Lexeme

namespace Number

variable {units : Nat}

/-- What is displayed of a large magnitude, up to the plus sign of its exponent. -/
def cutDisplay (x : Number) : String := String.ofList (x.display.takeWhile fun c => c != '+')

theorem chars_display_of_le (hle : pow10 16 * one ≤ units) (h : Representable units)
    (start : Nat) :
    Scan.chars start (finite false units h).display =
      ⟨[], some (.invalidConstant (finite false units h).cutDisplay start)⟩ := by
  obtain ⟨n, ds, -, hdisplay⟩ := display_of_le hle h
  have hcut : (finite false units h).cutDisplay =
      String.ofList (n.whole ++ (n.pointChars ++ ['e'])) := by
    have hplus : ∀ c ∈ n.whole ++ n.pointChars, (c != '+') = true := by
      intro c hc
      have hnumber := (List.mem_append.1 hc).elim Lexeme.startsNumber_of_mem_whole
        Lexeme.startsNumber_of_mem_pointChars
      refine bne_iff_ne.2 ?_
      rintro rfl
      exact absurd hnumber (by decide)
    rw [cutDisplay, hdisplay, ← List.append_assoc, List.takeWhile_append_of_pos hplus,
      List.append_assoc]
    rfl
  obtain ⟨c, cs, hcons, hc⟩ := n.exists_cons
  have hnumber := Lexeme.number_plus n ds start
  have htext : n.whole ++ (n.pointChars ++ 'e' :: '+' :: ds) = c :: (cs ++ 'e' :: '+' :: ds) := by
    rw [← List.append_assoc, hcons, List.cons_append]
  rw [htext, ← hcut] at hnumber
  rw [hdisplay, htext]
  refine Scan.chars_of_fault (Lexeme.isBlank_of_startsNumber hc) ?_
  rw [Lexeme.first, if_pos hc, hnumber]

theorem yields_display (hlt : units < pow10 16 * one) (h : Representable units) (limit : Limit) :
    Scan.Yields (finite false units h).display [] fun ts =>
      Derives limit 0 .unary ts (.constant (finite false units h)) := by
  obtain ⟨n, hchars, hnear⟩ := exists_numeral_display hlt h
  rw [← hchars, ← hnear]
  refine (Scan.Yields.numeral (by simp [Lexeme.Breaks]) n).mono ?_
  rintro _ ⟨t, rfl, hkind, -⟩
  exact (Derives.number hkind).of_rank_le (by decide)

theorem run_constant [Stack] (table : FunctionTable) (x : Number) :
    table.run (.constant x) = .ok (.value x, table) := by
  simp only [FunctionTable.run, Expr.definition?, FunctionTable.evaluate, Expr.eval,
    Stack.nesting_one, if_true]

theorem run_negate [Stack] (table : FunctionTable) (x : Number) :
    table.run (.operator .negate [.constant x]) = .ok (.value x.negate, table) := by
  simp only [FunctionTable.run, Expr.definition?, FunctionTable.evaluate, Expr.eval, Expr.evalAt,
    Operator.meaning, Stack.nesting_one, Nat.reduceAdd, Stack.nesting_two, if_true]

theorem line_magnitude [Stack] (table : FunctionTable) (hlt : units < pow10 16 * one)
    (h : Representable units) :
    Run.line table (String.ofList (finite false units h).display) =
      ⟨[(.constant (finite false units h), .value (finite false units h))], none, table⟩ := by
  have hread : Reading.ofLine (String.ofList (finite false units h).display) =
      ⟨[.constant (finite false units h)], none⟩ := by
    refine Reading.ofQueue_of_yields ?_
    rw [String.toList_ofList]
    exact (yields_display hlt h _).mono fun ts hts => hts.of_rank_le (by decide)
  simp only [Run.line, hread, Run.reading, Run.statements, run_constant, Option.map_none]

theorem line_negated [Stack] (table : FunctionTable) (hlt : units < pow10 16 * one)
    (h : Representable units) :
    Run.line table (String.ofList ('-' :: (finite false units h).display)) =
      ⟨[(.operator .negate [.constant (finite false units h)], .value (finite true units h))],
        none, table⟩ := by
  have hread : Reading.ofLine (String.ofList ('-' :: (finite false units h).display)) =
      ⟨[.operator .negate [.constant (finite false units h)]], none⟩ := by
    refine Reading.ofQueue_of_yields ?_
    rw [String.toList_ofList]
    refine Scan.Yields.append .minus (yields_display hlt h Stack.arguments) ?_
    rintro _ us ⟨t, rfl, ht, -⟩ hus
    exact (Derives.signed (by decide) ht hus).of_rank_le (by decide)
  simp only [Run.line, hread, Run.reading, Run.statements, run_negate, Option.map_none]
  rfl

theorem line_display [Stack] (table : FunctionTable) (negative : Bool)
    (hlt : units < pow10 16 * one) (h : Representable units) :
    let x := finite negative units h
    let r := Run.line table (String.ofList x.display)
    r.table = table ∧ r.outcome = .ok [if units = 0 then zero false else x] := by
  intro x r
  by_cases hzero : units = 0
  · subst hzero
    have hdisplay : x.display = (finite false 0 h).display :=
      (display_zero negative).trans (display_zero false).symm
    have hr : r = Run.line table (String.ofList (finite false 0 h).display) := by
      simp only [r, hdisplay]
    rw [hr, line_magnitude table hlt h]
    exact ⟨rfl, rfl⟩
  · rw [if_neg hzero]
    cases negative with
    | false =>
      rw [show r = _ from line_magnitude table hlt h]
      exact ⟨rfl, rfl⟩
    | true =>
      have hr : r = Run.line table (String.ofList ('-' :: (finite false units h).display)) := by
        simp only [r, x, display_negative hzero]
      rw [hr, line_negated table hlt h]
      exact ⟨rfl, rfl⟩

theorem ofLine_magnitude_of_le [Stack] (hle : pow10 16 * one ≤ units) (h : Representable units) :
    Reading.ofLine (String.ofList (finite false units h).display) =
      ⟨[], some (.lexical (.invalidConstant (finite false units h).cutDisplay 0))⟩ := by
  rw [Reading.ofLine, TokenQueue.ofLine, Scan.line, String.toList_ofList,
    chars_display_of_le hle h 0]
  rfl

theorem ofLine_negated_of_le [Stack] (hle : pow10 16 * one ≤ units) (h : Representable units) :
    Reading.ofLine (String.ofList ('-' :: (finite false units h).display)) =
      ⟨[], some (.lexical (.invalidConstant (finite false units h).cutDisplay 1))⟩ := by
  have hsign : Scan.Yields ['-'] (finite false units h).display
      (Token.Single (.operator .subtract) ['-']) := .minus
  obtain ⟨_, ⟨t, rfl, ht, -⟩, hminus⟩ := hsign 0
  simp only [List.singleton_append, List.length_singleton, Nat.zero_add,
    chars_display_of_le hle h 1, List.append_nil] at hminus
  -- The sign waits for an operand when the numeral turns out to be faulty.
  have hstep : ReaderState.start.step ⟨false, Stack.arguments⟩ t =
      .onward ⟨⟨none, [⟨.negate, none⟩]⟩, [], .none⟩ :=
    ReaderState.step_push ht (fun h => absurd h (by decide))
      (Level.push_leadingSign (by decide : (Operator.subtract, Operator.negate) ∈ leadingSigns) [])
  rw [Reading.ofLine, TokenQueue.ofLine, Scan.line, String.toList_ofList, hminus]
  exact Reading.ofQueue_of_error (by simp) (ReaderState.read_of_onward hstep)

theorem line_display_of_le [Stack] (table : FunctionTable) (negative : Bool)
    (hle : pow10 16 * one ≤ units) (h : Representable units) :
    let r := Run.line table (String.ofList (finite negative units h).display)
    r.table = table ∧
      r.outcome = .error (.lexical (.invalidConstant (finite false units h).cutDisplay
        (if negative then 1 else 0))) := by
  intro r
  have hpos : 0 < pow10 16 * one := Nat.mul_pos (pow10_pos 16) (pow2_pos 1074)
  have hzero : units ≠ 0 := Nat.ne_of_gt (Nat.lt_of_lt_of_le hpos hle)
  cases negative with
  | false =>
    simp only [r, Run.line, ofLine_magnitude_of_le hle h]
    exact ⟨rfl, rfl⟩
  | true =>
    simp only [r, Run.line, display_negative hzero, ofLine_negated_of_le hle h]
    exact ⟨rfl, rfl⟩

end Number

/-- What is displayed of a finite number is a line of its own. If its magnitude is below `10 ^ 16`
the only value of the line is the number, a negative zero apart, which is displayed as a positive
one; from there on the line is refused at the numeral. -/
theorem display_read_back [Stack] (table : FunctionTable) (negative : Bool) {units : Nat}
    (h : Representable units) :
    let x := Number.finite negative units h
    let r := Run.line table (String.ofList x.display)
    r.table = table ∧
      (units < pow10 16 * one → r.outcome = .ok [if units = 0 then .zero false else x]) ∧
      (pow10 16 * one ≤ units →
        r.outcome = .error (.lexical (.invalidConstant (Number.finite false units h).cutDisplay
          (if negative then 1 else 0)))) := by
  intro x r
  have hsmall : units < pow10 16 * one → _ := fun hlt => Number.line_display table negative hlt h
  have hlarge : pow10 16 * one ≤ units → _ :=
    fun hle => Number.line_display_of_le table negative hle h
  refine ⟨?_, fun hlt => (hsmall hlt).2, fun hle => (hlarge hle).2⟩
  rcases Nat.lt_or_ge units (pow10 16 * one) with hlt | hle
  · exact (hsmall hlt).1
  · exact (hlarge hle).1

theorem display_read_back_bounds :
    let least := Number.smallest true
    let first : Number := .finite false (pow10 16 * one) (Decimal.representable_pow10 (by decide))
    String.ofList least.display = "-5e-324" ∧
      (Run.line .empty "-5e-324").outcome = .ok [least] ∧
      String.ofList first.display = "1e+16" ∧
      (Run.line .empty "1e+16").outcome = .error (.lexical (.invalidConstant "1e" 0)) := by
  intro least first
  have hleast : String.ofList least.display = "-5e-324" := by decide +kernel
  have hfirst : String.ofList first.display = "1e+16" := by decide +kernel
  have hcut : first.cutDisplay = "1e" := by decide +kernel
  have hsmall := (display_read_back .empty true (representable_of_lt (by decide : 1 < pow2 53))).2.1
    (by decide +kernel)
  have hlarge := (display_read_back .empty false
    (Decimal.representable_pow10 (by decide : 16 ≤ 22))).2.2 (Nat.le_refl _)
  refine ⟨hleast, ?_, hfirst, ?_⟩
  · rw [← hleast]
    exact hsmall
  · rw [← hfirst, ← hcut]
    exact hlarge

end Reckon
