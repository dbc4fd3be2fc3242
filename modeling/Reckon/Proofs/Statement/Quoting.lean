import Reckon.Proofs.Statement.Naming
import Reckon.Proofs.Statement.Phrase
import Reckon.Proofs.Statement.WellFormed
set_option autoImplicit false

namespace Reckon

def quotedCall (quote : Char) (name : String) (arguments : List String) : String :=
  String.ofList (Lexeme.inQuotes quote name.toList ++
    Expr.argumentList (arguments.map String.toList))

def groupsJoined (op : Operator) (left right : String) : String :=
  "(" ++ left ++ ") " ++ op.name ++ " (" ++ right ++ ")"

def groupSigned (op : Operator) (operand : String) : String := op.name ++ "(" ++ operand ++ ")"

variable {limit limit' : Limit} {quote : Char} {name a b : String} {x y e : Expr} {op : Operator}
  {parts : List (Expr × String)}

namespace IsStatement

theorem yields_argument (h : IsStatement limit a x)
    (hlimit : ∀ n, limit.allows n = true → limit'.allows (n + 1) = true) {mark : Char}
    (hmark : mark ∈ [',', ')']) (us : List Char) :
    Scan.Yields a.toList (mark :: us) fun ts => Derives limit' 1 .assign ts x :=
  h.phrase.yields h.closed hlimit (Lexeme.mem_enders_of_mark hmark) us

theorem reading_groupsJoined (ha : IsStatement limit a x) (hb : IsStatement limit b y)
    (hop : op ∈ Operator.table) (hcall : op.isCall = false) (harity : op.arity = 2)
    (he : Joined op x y e) :
    Reading.ofQueue limit (.ofLine (groupsJoined op a b)) = ⟨[e], none⟩ := by
  obtain ⟨j, hj, rfl⟩ := Join.exists_sign op hop hcall harity
  have hleft := fun us => (ha.yields_group (' ' :: us)).mono fun ts hts =>
    hts.of_rank_le (Join.left_le_atom j hj)
  have hright := (hb.yields_group []).mono fun ts hts =>
    hts.of_rank_le (Nat.le_trans (Join.right_le_unary j hj) (by decide : _ ≤ Category.atom.rank))
  have hwhole := (Scan.Yields.join hj (hleft _) hright he).mono fun ts hts =>
    hts.of_rank_le (c := .assign) (Category.three_le_rank _)
  have htext : (groupsJoined j.sign a b).toList = Expr.grouped a.toList ++
      ' ' :: (j.sign.name.toList ++ ' ' :: Expr.grouped b.toList) := by
    simp [groupsJoined, Expr.grouped]
  exact Reading.ofQueue_of_yields (htext ▸ hwhole)

theorem reading_groupSigned (ha : IsStatement limit a x) (hop : (op, op) ∈ leadingSigns) :
    Reading.ofQueue limit (.ofLine (groupSigned op a)) = ⟨[.operator op [x]], none⟩ := by
  have hsigns : ∀ p ∈ leadingSigns, p.1 ∈ Operator.table ∧ p.1.isCall = false := by decide
  obtain ⟨htable, hcall⟩ := hsigns _ hop
  have hwhole : Scan.Yields (op.name.toList ++ Expr.grouped a.toList) [] fun ts =>
      Derives limit 0 .unary ts (.operator op [x]) :=
    .signed htable hcall hop rfl ha.yields_group
  have htext : (groupSigned op a).toList = op.name.toList ++ Expr.grouped a.toList := by
    simp [groupSigned, Expr.grouped]
  exact Reading.ofQueue_of_yields (htext ▸ hwhole.mono fun ts hts => hts.of_rank_le (by decide))

end IsStatement

section Call

variable (hquote : Lexeme.isQuote quote = true) (hname : quote ∉ name.toList) (hne : name ≠ ",")
include hquote hname hne

theorem Reading.ofQueue_quotedName (limit : Limit) (he : Named name [] e) :
    ofQueue limit (.ofLine (quotedCall quote name [])) = ⟨[e], none⟩ := by
  have hspelled : Scan.Yields (Lexeme.inQuotes quote name.toList) []
      (Token.Single .text name.toList) := .quoted hquote hname
  have htext : (quotedCall quote name []).toList = Lexeme.inQuotes quote name.toList := by
    simp [quotedCall, Expr.argumentList]
  have hwhole : Scan.Yields (Lexeme.inQuotes quote name.toList) [] fun ts =>
      Derives limit 0 .atom ts e := .bareName hspelled hne he
  exact ofQueue_of_yields (htext ▸ hwhole.mono fun ts hts => hts.of_rank_le (by decide))

variable (he : Named name (parts.map Prod.fst) e)
include he

theorem Reading.ofQueue_quotedCall (hparts : ∀ p ∈ parts, IsStatement limit p.2 p.1)
    (hlimit : ∀ n, limit.allows n = true → limit'.allows (n + 1) = true) :
    ofQueue limit' (.ofLine (quotedCall quote name (parts.map Prod.snd))) = ⟨[e], none⟩ := by
  cases parts with
  | nil => exact ofQueue_quotedName hquote hname hne limit' he
  | cons p parts =>
    let listed : Expr × String → Expr × List Char := fun q => (q.1, q.2.toList)
    have htext : (quotedCall quote name ((p :: parts).map Prod.snd)).toList =
        Lexeme.inQuotes quote name.toList ++
          Expr.argumentList ((listed p :: parts.map listed).map Prod.snd) := by
      simp [quotedCall, listed, Function.comp_def]
    have hvalues : (p :: parts).map Prod.fst = (listed p :: parts.map listed).map Prod.fst := by
      simp [listed]
    rw [hvalues] at he
    have hall : ∀ q ∈ listed p :: parts.map listed, ∀ mark ∈ [',', ')'], ∀ us,
        Scan.Yields q.2 (mark :: us) fun ts => Derives limit' 1 .assign ts q.1 := by
      intro q hq mark hmark us
      obtain ⟨r, hr, rfl⟩ := List.mem_map.1 (List.map_cons ▸ hq : q ∈ (p :: parts).map listed)
      exact (hparts r hr).yields_argument hlimit hmark us
    have hwhole : Scan.Yields (Lexeme.inQuotes quote name.toList ++
        Expr.argumentList ((listed p :: parts.map listed).map Prod.snd)) [] fun ts =>
          Derives limit' 0 .atom ts e :=
      .call (fun _ => .quoted hquote hname) hne (hlimit 0 limit.allows_zero) hall he
    exact ofQueue_of_yields (htext ▸ hwhole.mono fun ts hts => hts.of_rank_le (by decide))

/-- The argument list takes one level of the bound. Where no level is left the call is cut
short. -/
theorem Reading.all_quotedCall (hparts : ∀ p ∈ parts, IsStatement limit p.2 p.1) :
    let call := quotedCall quote name (parts.map Prod.snd)
    (ofQueue limit.deeper (.ofLine call)).all = .ok [e] ∧
      limit.SameOrCut (ofQueue limit (.ofLine call)).all (.ok [e]) := by
  intro call
  have hdeeper := ofQueue_quotedCall hquote hname hne he hparts
    (fun n hn => (limit.allows_deeper n).trans hn)
  have hunbounded := ofQueue_quotedCall hquote hname hne he hparts (fun n _ => Limit.allows_none _)
  refine ⟨congrArg all hdeeper, ?_⟩
  have hcut := all_sameOrCut limit.within_none (.ofLine call)
  rwa [show ofQueue none (.ofLine call) = ⟨[e], none⟩ from hunbounded] at hcut

end Call

theorem IsStatement.length_colon {branches : List Expr}
    (h : IsStatement limit a (.operator .colon branches)) : branches.length = 2 := by
  have hread : (Reading.ofQueue limit (.ofLine a)).statements = [.operator .colon branches] :=
    congrArg Reading.statements h.read
  have hwell : (Expr.operator .colon branches).WellFormed :=
    Reading.wellFormed_upTo limit _ (.ofLine a) _ (hread ▸ List.mem_singleton.2 rfl)
  exact hwell.length_operands

/-- A quote around the name of an operator: the call makes the node that the operator makes
between two groups, or before one. Only a question mark differs, which between groups takes over
the branches of a colon node on its right. -/
theorem quoted_operator (limit : Limit) {quote : Char} (hquote : Lexeme.isQuote quote = true) :
    let statements := fun limit text => (Reading.ofQueue limit (.ofLine text)).all
    (∀ op ∈ Operator.table, op.isCall = false → op.arity = 2 → ∀ a b x y,
      IsStatement limit a x → IsStatement limit b y →
      let node := Expr.operator op [x, y]
      let call := quotedCall quote op.name [a, b]
      statements limit.deeper call = .ok [node] ∧
      limit.SameOrCut (statements limit call) (.ok [node]) ∧
      ((op ≠ .question ∨ ∀ branches, y ≠ .operator .colon branches) →
        statements limit (groupsJoined op a b) = .ok [node]) ∧
      (∀ branches, op = .question → y = .operator .colon branches → branches.length = 2 ∧
        statements limit (groupsJoined op a b) =
          .ok [.operator .conditional (x :: branches)])) ∧
    ∀ op ∈ [Operator.logicalNot, .bitNot], ∀ a x, IsStatement limit a x →
      let node := Expr.operator op [x]
      let call := quotedCall quote op.name [a]
      statements limit.deeper call = .ok [node] ∧
      limit.SameOrCut (statements limit call) (.ok [node]) ∧
      statements limit (groupSigned op a) = .ok [node] := by
  intro statements
  constructor
  · intro op hop hcall harity a b x y ha hb node call
    have hparts : ∀ p ∈ [(x, a), (y, b)], IsStatement limit p.2 p.1 := by simpa using ⟨ha, hb⟩
    have hnamed : Named op.name ([(x, a), (y, b)].map Prod.fst) node := .builtIn hop harity.symm
    obtain ⟨hdeeper, hcut⟩ := Reading.all_quotedCall hquote
      (Operator.quote_not_mem_name hop hquote) (Operator.name_ne_comma hop) hnamed hparts
    refine ⟨hdeeper, hcut, fun hplain => ?_, fun branches hquestion hy => ?_⟩
    · have hjoined : Joined op x y node :=
        .plain fun hquestion => hplain.resolve_left (not_not_intro hquestion)
      exact congrArg Reading.all (ha.reading_groupsJoined hb hop hcall harity hjoined)
    · subst hquestion hy
      exact ⟨hb.length_colon,
        congrArg Reading.all (ha.reading_groupsJoined hb hop hcall harity .conditional)⟩
  · intro op hop a x ha node call
    have hsigns : ∀ op ∈ [Operator.logicalNot, .bitNot],
        op ∈ Operator.table ∧ op.arity = 1 ∧ (op, op) ∈ leadingSigns := by decide
    obtain ⟨htable, harity, hleading⟩ := hsigns op hop
    have hparts : ∀ p ∈ [(x, a)], IsStatement limit p.2 p.1 := by simpa using ha
    have hnamed : Named op.name ([(x, a)].map Prod.fst) node := .builtIn htable harity.symm
    obtain ⟨hdeeper, hcut⟩ := Reading.all_quotedCall hquote
      (Operator.quote_not_mem_name htable hquote) (Operator.name_ne_comma htable) hnamed hparts
    exact ⟨hdeeper, hcut, congrArg Reading.all (ha.reading_groupSigned hleading)⟩

theorem quoted_operator_question :
    let f : Expr := .call "f" [.call "x" []]
    let y : Expr := .call "y" []
    let z : Expr := .call "a b" []
    let colon : Expr := .operator .colon [y, z]
    (IsStatement (some 3299) "f(x)" f ∧ IsStatement (some 3299) "y:\"a b\"" colon) ∧
      (Reading.ofLine "'?'(f(x),y:\"a b\")").all = .ok [.operator .question [f, colon]] ∧
      (Reading.ofQueue (some 3299) (.ofLine "(f(x)) ? (y:\"a b\")")).all =
        .ok [.operator .conditional [f, y, z]] ∧
      (Reading.ofLine "'!'(f(x))").all = .ok [.operator .logicalNot [f]] ∧
      (Reading.ofQueue (some 3299) (.ofLine "!(f(x))")).all = .ok [.operator .logicalNot [f]] := by
  intro f y z colon
  have hf : IsStatement (some 3299) "f(x)" f := ⟨rfl, by decide, by decide +kernel⟩
  have hcolon : IsStatement (some 3299) "y:\"a b\"" colon := ⟨rfl, by decide, by decide +kernel⟩
  have hquote : Lexeme.isQuote '\x27' = true := rfl
  obtain ⟨hcall, -, -, hgroups⟩ := (quoted_operator (some 3299) hquote).1 .question (by decide)
    rfl rfl _ _ _ _ hf hcolon
  obtain ⟨hnot, -, hsigned⟩ := (quoted_operator (some 3299) hquote).2 .logicalNot (by decide) _ _ hf
  exact ⟨⟨hf, hcolon⟩, hcall, (hgroups [y, z] rfl rfl).2, hnot, hsigned⟩

/-- Any text in quotes, but for the names of the registry and a comma, is the name of a user
function, with the statements behind it for arguments. -/
theorem quoted_name (limit : Limit) {quote : Char} {name : String} {parts : List (Expr × String)}
    (hquote : Lexeme.isQuote quote = true) (hclosed : quote ∉ name.toList)
    (hname : IsUserName name) (hcomma : name ≠ ",")
    (hparts : ∀ p ∈ parts, IsStatement limit p.2 p.1) :
    let statements := fun limit text => (Reading.ofQueue limit (.ofLine text)).all
    let node := Expr.call name (parts.map Prod.fst)
    let call := quotedCall quote name (parts.map Prod.snd)
    (parts = [] → statements limit call = .ok [node]) ∧
      statements limit.deeper call = .ok [node] ∧
      limit.SameOrCut (statements limit call) (.ok [node]) := by
  intro statements node call
  obtain ⟨hdeeper, hcut⟩ := Reading.all_quotedCall hquote hclosed hcomma (.user hname) hparts
  refine ⟨?_, hdeeper, hcut⟩
  rintro rfl
  exact congrArg Reading.all (Reading.ofQueue_quotedName hquote hclosed hcomma limit (.user hname))

theorem quoted_name_punctuation :
    let comma : Expr := .call "x,y" []
    let negated : Expr := .operator .negate [.call "z" []]
    (IsStatement (some 3299) "\"x,y\"" comma ∧ IsStatement (some 3299) "-z" negated) ∧
      (Reading.ofLine "'f(1),\"+'").all = .ok [.call "f(1),\"+" []] ∧
      (Reading.ofLine "'f(1),\"+'(\"x,y\",-z)").all =
        .ok [.call "f(1),\"+" [comma, negated]] := by
  intro comma negated
  have hcomma : IsStatement (some 3299) "\"x,y\"" comma := ⟨rfl, by decide, by decide +kernel⟩
  have hnegated : IsStatement (some 3299) "-z" negated := ⟨rfl, by decide, by decide +kernel⟩
  have hquote : Lexeme.isQuote '\x27' = true := rfl
  have hclosed : '\x27' ∉ "f(1),\"+".toList := by decide
  have huser : IsUserName "f(1),\"+" := by decide
  have hparts : ∀ p ∈ [(comma, "\"x,y\""), (negated, "-z")],
      IsStatement (some 3299) p.2 p.1 := by simpa using ⟨hcomma, hnegated⟩
  have hnone : ∀ p ∈ ([] : List (Expr × String)), IsStatement (some 3299) p.2 p.1 := nofun
  obtain ⟨-, hname, -⟩ := quoted_name (some 3299) hquote hclosed huser (by decide) hnone
  obtain ⟨-, hcall, -⟩ := quoted_name (some 3299) hquote hclosed huser (by decide) hparts
  have hlimit : Limit.deeper (some 3299) = Stack.arguments := rfl
  have hnameText : quotedCall '\x27' "f(1),\"+" [] = "'f(1),\"+'" := by decide
  have hcallText : quotedCall '\x27' "f(1),\"+" ["\"x,y\"", "-z"] =
      "'f(1),\"+'(\"x,y\",-z)" := by decide
  rw [hlimit] at hname hcall
  exact ⟨⟨hcomma, hnegated⟩, hnameText ▸ hname, hcallText ▸ hcall⟩

/-- A comma in quotes is still a separator, and there is nothing before it. -/
theorem quoted_name_comma :
    '\x27' ∉ ",".toList ∧ IsUserName "," ∧
      (Reading.ofLine "','").all ≠ .ok [.call "," []] ∧
      Reading.ofLine "','" = ⟨[], some (.misplaced .endOfInput none)⟩ := by
  refine ⟨by decide, by decide, ?_, rfl⟩
  have hread : (Reading.ofLine "','").all = .error (.misplaced .endOfInput none) := rfl
  rw [hread]
  nofun

end Reckon
