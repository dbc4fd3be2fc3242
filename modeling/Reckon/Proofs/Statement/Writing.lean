import Reckon.Proofs.Expr.Writing
import Reckon.Proofs.Statement.Joining
set_option autoImplicit false

namespace Reckon

namespace Join

theorem sign_mem : ∀ j ∈ all, j.sign ∈ Operator.table ∧ j.sign.isCall = false := by decide

theorem exists_sign : ∀ op ∈ Operator.table, op.isCall = false → op.arity = 2 →
    ∃ j ∈ all, j.sign = op := by decide

end Join

theorem exists_leadingSign {op : Operator} : op.isCall = false → op.arity = 1 →
    ∃ sign ∈ Operator.table, (sign, op) ∈ leadingSigns ∧ sign.name = op.name ∧
      sign.isCall = false := by
  cases op <;> decide

inductive DerivesAll (limit : Limit) (d : Nat) : List Token → List Expr → Prop where
  | one {s : List Token} {e : Expr} : Derives limit d .assign s e → DerivesAll limit d s [e]
  | more {s ts : List Token} {t : Token} {e : Expr} {es : List Expr} :
      Derives limit d .assign s e → t.IsSeparator → DerivesAll limit d ts es →
      DerivesAll limit d (s ++ t :: ts) (e :: es)

variable {limit : Limit} {d : Nat}

theorem DerivesAll.exists_last {ts : List Token} {es : List Expr} (h : DerivesAll limit d ts es) :
    ∃ (initial : List LeadingArgument) (s : List Token) (last : Expr),
      ts = initial.flatMap LeadingArgument.tokens ++ s ∧
        es = initial.map LeadingArgument.value ++ [last] ∧
        (∀ a ∈ initial, a.comma.IsSeparator ∧ Derives limit d .assign a.phrase a.value) ∧
        Derives limit d .assign s last := by
  induction h with
  | @one s e h => exact ⟨[], s, e, rfl, rfl, by simp, h⟩
  | @more s ts t e es h ht _ ih =>
    obtain ⟨initial, s', last, rfl, rfl, hinitial, hlast⟩ := ih
    refine ⟨⟨s, t, e⟩ :: initial, s', last, ?_, rfl,
      List.forall_mem_cons.2 ⟨⟨ht, h⟩, hinitial⟩, hlast⟩
    simp [LeadingArgument.tokens]

theorem Derives.call_of_all {t o c : Token} {ts : List Token} {es : List Expr} {e : Expr}
    (ht : t.IsName) (ho : o.kind = .operator .openParen) (hc : c.kind = .operator .closeParen)
    (hallows : limit.allows (d + 1) = true) (h : DerivesAll limit (d + 1) ts es)
    (he : Named t.text es e) : Derives limit d .atom (t :: o :: (ts ++ [c])) e := by
  obtain ⟨initial, s, last, rfl, rfl, hinitial, hlast⟩ := h.exists_last
  rw [List.append_assoc]
  exact .call ht ho hc hallows (fun a ha => (hinitial a ha).1) (fun a ha => (hinitial a ha).2)
    hlast he

namespace Scan.Yields

variable {rest text l r : List Char} {a b e : Expr}

theorem between {P Q : List Token → Prop} (h : Yields text (')' :: rest) P)
    (hQ : ∀ o c ts, o.kind = .operator .openParen → c.kind = .operator .closeParen → P ts →
      Q (o :: (ts ++ [c]))) : Yields (Expr.grouped text) rest Q := by
  have hclosed : Yields (text ++ [')']) rest fun ts => ∃ us c, ts = us ++ [c] ∧ P us ∧
      c.kind = .operator .closeParen := by
    refine append h closeParen ?_
    rintro us _ hus ⟨c, rfl, hc, -⟩
    exact ⟨us, c, rfl, hus, hc⟩
  refine append openParen hclosed ?_
  rintro _ _ ⟨o, rfl, ho, -⟩ ⟨us, c, rfl, hus, hc⟩
  exact hQ o c us ho hc hus

theorem join {j : Join} (hj : j ∈ Join.all)
    (hl : Yields l (' ' :: (j.sign.name.toList ++ ' ' :: (r ++ rest)))
      fun ts => Derives limit d j.left ts a)
    (hr : Yields r rest fun ts => Derives limit d j.right ts b) (he : Joined j.sign a b e) :
    Yields (l ++ ' ' :: (j.sign.name.toList ++ ' ' :: r)) rest
      fun ts => Derives limit d j.whole ts e := by
  obtain ⟨hop, hcall⟩ := Join.sign_mem j hj
  have hsign : Yields j.sign.name.toList (' ' :: r ++ rest)
      (Token.Single (.operator j.sign) j.sign.name.toList) :=
    sign hop hcall (Operator.longest?_name_cons hop (by simp) _)
  have htail : Yields (' ' :: (j.sign.name.toList ++ ' ' :: r)) rest fun ts =>
      ∃ t us, ts = t :: us ∧ t.kind = .operator j.sign ∧ Derives limit d j.right us b := by
    refine blank (by decide) (append hsign (blank (by decide) hr) ?_)
    rintro _ us ⟨t, rfl, ht, -⟩ hus
    exact ⟨t, us, rfl, ht, hus⟩
  refine append (by simpa using hl) htail ?_
  rintro ts _ hts ⟨t, us, rfl, ht, hus⟩
  exact .join hj ht hts hus he

theorem conditional {condition yes no : List Char} {x y z : Expr}
    (hcondition : ∀ us, Yields condition (' ' :: us) fun ts => Derives limit d .logicalOr ts x)
    (hyes : ∀ us, Yields yes (' ' :: us) fun ts => Derives limit d .logicalOr ts y)
    (hno : Yields no rest fun ts => Derives limit d .condition ts z) :
    Yields (condition ++ ' ' :: '?' :: ' ' :: (yes ++ ' ' :: ':' :: ' ' :: no)) rest
      fun ts => Derives limit d .condition ts (.operator .conditional [x, y, z]) := by
  have hbranches := join (j := ⟨.colon, .condition, .logicalOr, .condition⟩) (by decide)
    (hyes _) hno (.plain nofun)
  exact join (j := ⟨.question, .condition, .logicalOr, .condition⟩) (by decide)
    (hcondition _) hbranches .conditional

theorem signed {op sign : Operator} (hop : sign ∈ Operator.table) (hcall : sign.isCall = false)
    (hsign : (sign, op) ∈ leadingSigns) (hname : sign.name = op.name)
    (h : ∀ rest, Yields ('(' :: text) rest fun ts => Derives limit d .atom ts e) :
    Yields (op.name.toList ++ '(' :: text) rest
      fun ts => Derives limit d .unary ts (.operator op [e]) := by
  have hfirst : Yields op.name.toList ('(' :: text ++ rest)
      (Token.Single (.operator sign) op.name.toList) := by
    rw [← hname]
    exact Yields.sign hop hcall (Operator.longest?_name_cons hop (by simp) _)
  refine append hfirst (h rest) ?_
  rintro _ us ⟨t, rfl, ht, -⟩ hus
  exact .signed hsign ht (hus.of_rank_le (by decide))

theorem bareName {name : String} {spelled : List Char}
    (hspelled : Yields spelled rest (Token.Single .text name.toList)) (hne : name ≠ ",")
    (he : Named name [] e) : Yields spelled rest fun ts => Derives limit d .atom ts e := by
  refine hspelled.mono ?_
  rintro _ ⟨t, rfl, hkind, htext⟩
  rw [String.ofList_toList] at htext
  subst htext
  exact .name ⟨hkind, hne⟩ he

theorem arguments {p : Expr × List Char} {parts : List (Expr × List Char)}
    (h : ∀ q ∈ p :: parts, ∀ mark ∈ [',', ')'], ∀ us,
      Yields q.2 (mark :: us) fun ts => Derives limit d .assign ts q.1) (us : List Char) :
    Yields ([','].intercalate ((p :: parts).map Prod.snd)) (')' :: us)
      fun ts => DerivesAll limit d ts ((p :: parts).map Prod.fst) := by
  induction parts generalizing p with
  | nil => simpa using (h p (by simp) ')' (by simp) us).mono fun ts hts => DerivesAll.one hts
  | cons q parts ih =>
    obtain ⟨hp, hparts⟩ := List.forall_mem_cons.1 h
    have hfirst := hp ',' (by simp) ([','].intercalate ((q :: parts).map Prod.snd) ++ ')' :: us)
    have hfurther := append comma (ih hparts)
      (R := fun ts => ∃ t us, ts = t :: us ∧ t.IsSeparator ∧
        DerivesAll limit d us ((q :: parts).map Prod.fst)) (by
        rintro _ us ⟨t, rfl, hkind, htext⟩ hus
        exact ⟨t, us, rfl, ⟨hkind, htext⟩, hus⟩)
    simp only [List.map_cons, List.intercalate_cons_cons, List.append_assoc]
    refine append hfirst hfurther ?_
    rintro ts _ hts ⟨t, us, rfl, ht, hus⟩
    exact .more hts ht hus

theorem call {name : String} {spelled : List Char} {p : Expr × List Char}
    {parts : List (Expr × List Char)}
    (hspelled : ∀ us, Yields spelled ('(' :: us) (Token.Single .text name.toList))
    (hne : name ≠ ",") (hallows : limit.allows (d + 1) = true)
    (h : ∀ q ∈ p :: parts, ∀ mark ∈ [',', ')'], ∀ us,
      Yields q.2 (mark :: us) fun ts => Derives limit (d + 1) .assign ts q.1)
    (he : Named name ((p :: parts).map Prod.fst) e) :
    Yields (spelled ++ Expr.argumentList ((p :: parts).map Prod.snd)) rest
      fun ts => Derives limit d .atom ts e := by
  have hlist := (arguments h rest).between
    (Q := fun ts => ∃ o us c, ts = o :: (us ++ [c]) ∧ o.kind = .operator .openParen ∧
      c.kind = .operator .closeParen ∧ DerivesAll limit (d + 1) us ((p :: parts).map Prod.fst))
    fun o c us ho hc hus => ⟨o, us, c, rfl, ho, hc, hus⟩
  refine append (hspelled _) hlist ?_
  rintro _ _ ⟨t, rfl, hkind, htext⟩ ⟨o, us, c, rfl, ho, hc, hus⟩
  rw [String.ofList_toList] at htext
  subst htext
  exact .call_of_all ⟨hkind, hne⟩ ho hc hallows hus he

end Scan.Yields

/-- Before a break the text is scanned as a sentence that means the expression, at whatever depth
its own argument lists leave room for. -/
def ScansAs (limit : Limit) (text : List Char) (e : Expr) : Prop :=
  ∀ d rest, limit.allows (d + e.argumentDepth) = true → Lexeme.Breaks rest →
    Scan.Yields text rest fun ts => Derives limit d .assign ts e

namespace ScansAs

variable {rest text l r : List Char} {a b e : Expr} {op : Operator} {operands : List Expr}
  {parts : List (Expr × List Char)}

theorem operand (h : ScansAs limit text e) (he : e ∈ operands)
    (hdepth : limit.allows (d + Expr.argumentDepths operands) = true)
    (hrest : Lexeme.Breaks rest) :
    Scan.Yields text rest fun ts => Derives limit d .assign ts e := by
  have hle := Nat.add_le_add_left (Expr.argumentDepth_le_of_mem he) d
  exact h d rest (Limit.allows_of_le hdepth hle) hrest

theorem grouped (h : ScansAs limit text e) (he : e ∈ operands)
    (hdepth : limit.allows (d + Expr.argumentDepths operands) = true) (rest : List Char) :
    Scan.Yields (Expr.grouped text) rest fun ts => Derives limit d .atom ts e :=
  (h.operand he hdepth (Lexeme.breaks_cons (by decide) rest)).between
    fun _ _ _ ho hc hts => .group ho hc hts

theorem constant (n : Numeral) : ScansAs limit n.chars (.constant n.decimal.nearest) := by
  intro d rest _ hrest
  refine (Scan.Yields.numeral hrest n).mono ?_
  rintro _ ⟨t, rfl, hkind, -⟩
  exact (Derives.number hkind).of_rank_le (by decide)

theorem unary (hcall : op.isCall = false) (harity : op.arity = 1) (h : ScansAs limit text e) :
    ScansAs limit (op.name.toList ++ Expr.grouped text) (.operator op [e]) := by
  intro d rest hdepth _
  rw [Expr.argumentDepth_sign hcall] at hdepth
  obtain ⟨sign, hsign, hleading, hname, hnocall⟩ := exists_leadingSign hcall harity
  have hgroup := h.grouped (by simp) hdepth
  exact (Scan.Yields.signed hsign hnocall hleading hname hgroup).mono fun ts hts =>
    hts.of_rank_le (by decide)

theorem join {j : Join} (hj : j ∈ Join.all) (hl : ScansAs limit l a) (hmem : a ∈ operands)
    (hdepth : limit.allows (d + Expr.argumentDepths operands) = true)
    (hr : Scan.Yields r rest fun ts => Derives limit d j.right ts b) (he : Joined j.sign a b e) :
    Scan.Yields (Expr.grouped l ++ ' ' :: (j.sign.name.toList ++ ' ' :: r)) rest
      fun ts => Derives limit d j.whole ts e := by
  have hleft := hl.grouped hmem hdepth
  exact .join hj ((hleft _).mono fun ts hts => hts.of_rank_le (Join.left_le_atom j hj)) hr he

theorem binary (hop : op ∈ Operator.table) (hcall : op.isCall = false) (harity : op.arity = 2)
    (hfuse : op = .question → ∀ branches, b ≠ .operator .colon branches)
    (hl : ScansAs limit l a) (hr : ScansAs limit r b) :
    ScansAs limit (Expr.grouped l ++ ' ' :: (op.name.toList ++ ' ' :: Expr.grouped r))
      (.operator op [a, b]) := by
  intro d rest hdepth _
  rw [Expr.argumentDepth_sign hcall] at hdepth
  obtain ⟨j, hj, rfl⟩ := Join.exists_sign op hop hcall harity
  have hrank : j.right.rank ≤ Category.atom.rank :=
    Nat.le_trans (Join.right_le_unary j hj) (by decide)
  have hright := (hr.grouped (by simp) hdepth rest).mono fun ts hts => hts.of_rank_le hrank
  exact (join hj hl (by simp) hdepth hright (.plain hfuse)).mono fun ts hts =>
    hts.of_rank_le (Category.three_le_rank _)

theorem conditional {condition yes no : Expr} {c y n : List Char} (hc : ScansAs limit c condition)
    (hy : ScansAs limit y yes) (hn : ScansAs limit n no) :
    ScansAs limit
      (Expr.grouped c ++ ' ' :: '?' :: ' ' ::
        (Expr.grouped y ++ ' ' :: ':' :: ' ' :: Expr.grouped n))
      (.operator .conditional [condition, yes, no]) := by
  intro d rest hdepth _
  rw [Expr.argumentDepth_sign rfl] at hdepth
  have hcondition := fun us => (hc.grouped (by simp) hdepth (' ' :: us)).mono fun ts hts =>
    hts.of_rank_le (c := .logicalOr) (by decide)
  have hyes := fun us => (hy.grouped (by simp) hdepth (' ' :: us)).mono fun ts hts =>
    hts.of_rank_le (c := .logicalOr) (by decide)
  have hno := (hn.grouped (by simp) hdepth rest).mono fun ts hts =>
    hts.of_rank_le (c := .condition) (by decide)
  exact (Scan.Yields.conditional hcondition hyes hno).mono fun ts hts =>
    hts.of_rank_le (by decide)

theorem call {name : String} {spelled : List Char}
    (hspelled : ∀ rest, Lexeme.Breaks rest →
      Scan.Yields spelled rest (Token.Single .text name.toList))
    (hne : name ≠ ",") (he : Named name (parts.map Prod.fst) e)
    (hparts : ∀ p ∈ parts, ScansAs limit p.2 p.1)
    (hdepth : parts ≠ [] →
      e.argumentDepth = Expr.argumentDepths (parts.map Prod.fst) + 1) :
    ScansAs limit (spelled ++ Expr.argumentList (parts.map Prod.snd)) e := by
  intro d rest hlimit hrest
  cases parts with
  | nil =>
    rw [List.map_nil, Expr.argumentList, List.append_nil]
    exact (Scan.Yields.bareName (hspelled rest hrest) hne he).mono fun ts hts =>
      hts.of_rank_le (by decide)
  | cons p parts =>
    have hinner :
        limit.allows (d + 1 + Expr.argumentDepths ((p :: parts).map Prod.fst)) = true := by
      rw [hdepth (by simp)] at hlimit
      exact Limit.allows_of_le hlimit (by omega)
    have hallows := Limit.allows_of_le hinner (Nat.le_add_right (d + 1) _)
    have hall : ∀ q ∈ p :: parts, ∀ mark ∈ [',', ')'], ∀ us, Scan.Yields q.2 (mark :: us)
        fun ts => Derives limit (d + 1) .assign ts q.1 :=
      fun q hq mark hmark us => (hparts q hq).operand (List.mem_map_of_mem hq) hinner
        (Lexeme.breaks_cons (List.mem_cons_of_mem _ (Lexeme.mem_enders_of_mark hmark)) us)
    have hspelled := fun us => hspelled ('(' :: us) (Lexeme.breaks_cons (by decide) us)
    exact (Scan.Yields.call hspelled hne hallows hall he).mono fun ts hts =>
      hts.of_rank_le (by decide)

end ScansAs

namespace Expr

theorem yields_builtIn {op : Operator} {name rest : List Char} (hop : op ∈ Operator.table)
    (hcall : op.isCall = true)
    (hname : name = op.name.toList ∨
      ∃ quote, Lexeme.isQuote quote = true ∧ name = Lexeme.inQuotes quote op.name.toList)
    (hrest : Lexeme.Breaks rest) : Scan.Yields name rest (Token.Single .text op.name.toList) := by
  rcases hname with rfl | ⟨quote, hquote, rfl⟩
  · exact .word (Operator.isWord_name hop hcall) hrest
  · exact .quoted hquote (Operator.quote_not_mem_name hop hquote)

theorem Writes.scansAs {e : Expr} {text : List Char} (h : Writes e text) (he : e.Writable) :
    ScansAs limit text e := by
  induction h with
  | constant n => exact .constant n
  | @call name quote parts hquote hname _ ih =>
    cases he with
    | call htable hcomma _ hoperands =>
      have hparts : ∀ p ∈ parts, ScansAs limit p.2 p.1 :=
        fun p hp => ih p hp (hoperands p.1 (List.mem_map_of_mem hp))
      exact .call (fun _ _ => .quoted hquote hname) hcomma (.user htable) hparts
        fun hne => argumentDepth_call (by simpa using hne)
  | @builtIn op name parts hcall hname _ ih =>
    cases he with
    | operator hop _ _ hlength _ hoperands =>
      have htable : op ∈ Operator.table := by
        rcases hop with hop | rfl | rfl
        · exact hop
        · cases hcall
        · cases hcall
      have hparts : ∀ p ∈ parts, ScansAs limit p.2 p.1 :=
        fun p hp => ih p hp (hoperands p.1 (List.mem_map_of_mem hp))
      exact .call (fun _ hrest => yields_builtIn htable hcall hname hrest)
        (Operator.name_ne_comma htable) (.builtIn htable hlength) hparts
        fun hne => argumentDepth_builtIn hcall (by simpa using hne)
  | unary hcall _ ih =>
    cases he with
    | operator _ _ _ hlength _ hoperands =>
      exact .unary hcall hlength.symm (ih (hoperands _ (by simp)))
  | @binary op left right l r hcall _ _ ihl ihr =>
    cases he with
    | operator hop _ _ hlength hfuse hoperands =>
      have htable : op ∈ Operator.table := by
        rcases hop with hop | rfl | rfl
        · exact hop
        · cases hlength
        · cases hlength
      exact .binary htable hcall hlength.symm
        (fun hquestion branches hright => hfuse hquestion left branches (by rw [hright]))
        (ihl (hoperands left (by simp))) (ihr (hoperands right (by simp)))
  | conditional _ _ _ ihc ihy ihn =>
    cases he with
    | operator _ _ _ _ _ hoperands =>
      exact .conditional (ihc (hoperands _ (by simp))) (ihy (hoperands _ (by simp)))
        (ihn (hoperands _ (by simp)))

end Expr

theorem Reading.ofQueue_of_yields {limit : Limit} {e : Expr} {text : String}
    (h : Scan.Yields text.toList [] fun ts => Derives limit 0 .assign ts e) :
    Reading.ofQueue limit (.ofLine text) = ⟨[e], none⟩ := by
  obtain ⟨ts, hts, hchars⟩ := h 0
  have hqueue : TokenQueue.ofLine text = ⟨ts, none⟩ := by
    rw [List.append_nil, Scan.scan_nil, List.append_nil] at hchars
    simp only [TokenQueue.ofLine, Scan.line, hchars]
  have hstatement : (TokenQueue.ofLine text).statement ⟨false, limit⟩ = (.ok e, ⟨[], none⟩) := by
    rw [hqueue]
    exact Derives.statement hts (List.append_nil ts).symm .line
  rw [Reading.ofQueue_of_statement (TokenQueue.hasSigns_ofLine text) hstatement]
  rfl

/-- Every writable expression can be written, and whatever way it is written, the line has it as
its only statement. -/
theorem writable_read_back {e : Expr} (he : e.Writable) :
    (∃ text : String, e.Writes text.toList) ∧
      ∀ text : String, e.Writes text.toList →
        ∀ limit : Limit, limit.allows e.argumentDepth = true →
          Reading.ofQueue limit (.ofLine text) = ⟨[e], none⟩ := by
  constructor
  · obtain ⟨text, htext⟩ := he.exists_writes
    exact ⟨String.ofList text, by rwa [String.toList_ofList]⟩
  · intro text htext limit hlimit
    have hbreaks : Lexeme.Breaks [] := by simp [Lexeme.Breaks]
    have hdepth : limit.allows (0 + e.argumentDepth) = true := by rwa [Nat.zero_add]
    exact Reading.ofQueue_of_yields (htext.scansAs he 0 [] hdepth hbreaks)

theorem writable_read_back_fused :
    let x : Expr := .call "x\x27" []
    let f : Expr := .call "f" [.constant (.ofInt 2), .operator .pi []]
    let e : Expr := .operator .conditional
      [f, .operator .negate [x], .operator .colon [.constant (.zero false), x]]
    e.Writable ∧
      Reading.ofLine "('f'(2,pi)) ? (-(\"x\x27\")) : ((.0e5) : (\"x\x27\"))" = ⟨[e], none⟩ := by
  intro x f e
  have htwo : Number.ofInt 2 =
      .finite false (2 * one) ⟨1, 1075, by decide, by decide, by decide +kernel⟩ := by
    decide +kernel
  have hx : x.Writable :=
    .call (by decide +kernel) (by decide) ⟨'\x22', by decide, by decide⟩ (by simp)
  have hpi : Expr.Writable (.operator .pi []) :=
    .operator (by decide) (by decide) (by decide) rfl (by simp) (by simp)
  have hf : f.Writable := by
    refine .call (by decide +kernel) (by decide) ⟨'\x27', by decide, by decide⟩ ?_
    rw [htwo]
    simpa using ⟨.constant, hpi⟩
  have hnegate : Expr.Writable (.operator .negate [x]) :=
    .operator (by decide) (by decide) (by decide) rfl (by simp) (by simpa using hx)
  have hcolon : Expr.Writable (.operator .colon [.constant (.zero false), x]) :=
    .operator (by decide) (by decide) (by decide) rfl (by simp) (by simpa using ⟨.constant, hx⟩)
  have he : e.Writable := by
    refine .operator (by decide) (by decide) (by decide) rfl (by simp) ?_
    simpa using ⟨hf, hnegate, hcolon⟩
  let two : Numeral := ⟨['2'], none, none, by simp, by simp⟩
  let zero : Numeral :=
    ⟨[], some ['0'], some ⟨false, ['5'], by simp, by simp⟩, by simp, by simp⟩
  have htwoWrites : Expr.Writes (.constant (.ofInt 2)) ['2'] := by
    have hvalue : two.decimal.nearest = .ofInt 2 := by decide +kernel
    exact hvalue ▸ .constant two
  have hzeroWrites : Expr.Writes (.constant (.zero false)) ['.', '0', 'e', '5'] := .constant zero
  have hdouble : Lexeme.isQuote '\x22' = true := rfl
  have hsingle : Lexeme.isQuote '\x27' = true := rfl
  have hnone : ∀ p ∈ ([] : List (Expr × List Char)), p.1.Writes p.2 := by simp
  have hpiWrites : Expr.Writes (.operator .pi []) ['p', 'i'] := .builtIn rfl (.inl rfl) hnone
  have hxWrites : x.Writes ['\x22', 'x', '\x27', '\x22'] :=
    Expr.Writes.call hdouble (by decide) hnone
  have harguments : ∀ p ∈ [((.constant (.ofInt 2) : Expr), ['2']), (.operator .pi [], ['p', 'i'])],
      p.1.Writes p.2 := by simpa using ⟨htwoWrites, hpiWrites⟩
  have hfWrites : f.Writes "'f'(2,pi)".toList := Expr.Writes.call hsingle (by decide) harguments
  refine ⟨he, (writable_read_back he).2 _ ?_ Stack.arguments (by decide)⟩
  exact .conditional hfWrites (.unary rfl hxWrites) (.binary rfl hzeroWrites hxWrites)

end Reckon
