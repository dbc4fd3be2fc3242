import Reckon.Proofs.Expr.Rendering
import Reckon.Proofs.Statement.Naming
import Reckon.Proofs.Token.Tiling
set_option autoImplicit false

namespace Reckon

/-- The line has no quotes, and the values of its numerals are finite. -/
structure IsPlainLine (source : String) : Prop where
  unquoted : ∀ c ∈ source.toList, Lexeme.isQuote c = false
  finite : ∀ t ∈ (Scan.line source).tokens, ∀ value, t.kind = .number value → value.isFinite = true

def Token.value? (t : Token) : Option Number :=
  match t.kind with
  | .number value => some value
  | _ => none

theorem isPlainLine_iff (source : String) :
    IsPlainLine source ↔ (source.toList.all fun c => !Lexeme.isQuote c) = true ∧
      ((Scan.line source).tokens.all fun t => t.value?.all Number.isFinite) = true := by
  have hvalue : ∀ t : Token, t.value?.all Number.isFinite = true ↔
      ∀ value, t.kind = .number value → value.isFinite = true := by
    intro t
    cases h : t.kind <;> simp [Token.value?, h]
  simp only [List.all_eq_true, hvalue, Bool.not_eq_true']
  exact ⟨fun h => ⟨h.unquoted, h.finite⟩, fun h => ⟨h.1, h.2⟩⟩

instance (source : String) : Decidable (IsPlainLine source) :=
  decidable_of_iff _ (isPlainLine_iff source).symm

/-- The value of a number is finite and has no minus sign, and a name is bare. -/
structure Token.IsPlain (t : Token) : Prop where
  number : ∀ value, t.kind = .number value → value.isFinite = true ∧ value.isNegative = false
  name : t.IsName → Expr.IsBare t.text.toList ∧ t.text ≠ Operator.conditional.name

namespace Lexeme

variable {start : Nat} {c : Char} {cs text piece rest : List Char} {l : Lexeme} {value : Number}

theorem startsNumber_of_startsWord (h : startsWord c = true) : startsNumber c = false := by
  refine Bool.eq_false_iff.2 fun hnumber => ?_
  rcases (by simpa [startsNumber] using hnumber : c.isDigit = true ∨ c = '.') with hdigit | rfl
  · have hunderscore : c ≠ '_' := by
      rintro rfl
      exact absurd hdigit (by decide)
    simp [startsWord, isLetter_of_isDigit hdigit, hunderscore] at h
  · exact absurd h (by decide)

theorem not_mem_marks_of_continuesWord (h : continuesWord c = true) : c ∉ Expr.marks := by
  intro hc
  have hnone := continuesWord_of_mem
    (List.mem_cons_of_mem ' ' (List.mem_append_left ['\x27', '\x22'] hc))
  rw [h] at hnone
  cases hnone

theorem isNegative_number (h : number start cs = .ok l) (hl : l.kind = .number value) :
    value.isNegative = false := by
  rcases number_value h with ⟨d, hd⟩ | ⟨k, hk⟩
  · rw [← TokenKind.number.inj (hd.symm.trans hl)]
    exact d.isNegative_nearest
  · rw [← TokenKind.number.inj (hk.symm.trans hl)]
    exact Number.isNegative_ofInt k

theorem isNegative_first (h : first start c cs = .ok l) (hl : l.kind = .number value) :
    value.isNegative = false := by
  unfold first at h
  split at h
  · exact isNegative_number h hl
  · split at h
    · cases h
      cases hl
    · split at h
      · cases h
        cases hl
      · cases h
        unfold sign at hl
        split at hl <;> cases hl

theorem Cut.bare (h : Cut .text text piece rest) (hpiece : ∀ c ∈ piece, isQuote c = false)
    (hcomma : text ≠ [',']) :
    Expr.IsBare text ∧ text ≠ Operator.conditional.name.toList := by
  cases h with
  | @word c cs _ hstart hall _ =>
    have hfirst : continuesWord c = true := by
      simp only [startsWord, Bool.or_eq_true] at hstart
      simp only [continuesWord, Bool.or_eq_true]
      exact .inl hstart
    refine ⟨⟨fun d hd => not_mem_marks_of_continuesWord ?_, c, rfl,
      startsNumber_of_startsWord hstart⟩, ?_⟩
    · exact (List.mem_cons.1 hd).elim (fun heq => heq ▸ hfirst) (hall d)
    · intro heq
      obtain ⟨rfl, -⟩ := List.cons.inj (heq : c :: cs = ['?', ':'])
      exact absurd hstart (by decide)
  | @quoted quote _ _ hquote _ =>
    rw [hpiece quote (by simp)] at hquote
    cases hquote
  | @unended quote _ hquote _ =>
    rw [hpiece quote (by simp)] at hquote
    cases hquote
  | @other c rest _ hnumber _ _ hlongest =>
    have hopen : c ≠ '(' := fun heq => hlongest .openParen (by decide) ⟨rest, by rw [heq]; rfl⟩
    have hclose : c ≠ ')' := fun heq => hlongest .closeParen (by decide) ⟨rest, by rw [heq]; rfl⟩
    have hnone : c ≠ ',' := fun heq => hcomma (by rw [heq])
    refine ⟨⟨fun d hd => ?_, c, rfl, hnumber⟩, fun heq => ?_⟩
    · rw [List.mem_singleton.1 hd]
      simp [Expr.marks, hopen, hclose, hnone]
    · cases (List.cons.inj (heq : [c] = ['?', ':'])).2

end Lexeme

theorem IsPlainLine.isPlain {source : String} (h : IsPlainLine source) :
    ∀ t ∈ (Scan.line source).tokens, t.IsPlain := by
  have hsigns : ∀ t ∈ (Scan.line source).tokens, ∀ value, t.kind = .number value →
      value.isNegative = false :=
    Scan.forall_chars (fun _ _ _ _ _ hl _ hkind => Lexeme.isNegative_first hl hkind) 0
      source.toList
  have htiles : Scan.Tiles source.toList 0 ((Scan.line source).stop source.toList)
      (Scan.line source).tokens := Scan.tiles_chars 0 source.toList rfl (Nat.zero_le _)
  intro t ht
  refine ⟨fun value hkind => ⟨h.finite t ht value hkind, hsigns t ht value hkind⟩, fun hname => ?_⟩
  have hcut := htiles.cut t ht
  rw [hname.1] at hcut
  have hpiece : ∀ c ∈ t.slice source.toList, Lexeme.isQuote c = false :=
    fun c hc => h.unquoted c (List.mem_of_mem_drop (List.mem_of_mem_take hc))
  obtain ⟨hbare, hne⟩ := hcut.bare hpiece fun heq => hname.2 (String.toList_inj.1 heq)
  exact ⟨hbare, fun heq => hne (heq ▸ rfl)⟩

section Phrases

variable {op : Operator} {a b e : Expr} {name : String} {arguments : List Expr}

theorem Named.plain (h : Named name arguments e)
    (hname : Expr.IsBare name.toList ∧ name ≠ Operator.conditional.name)
    (harguments : ∀ a ∈ arguments, a.Plain) : e.Plain := by
  cases h with
  | @builtIn op _ hop hlen =>
    refine .operator ?_ hlen harguments
    have hopen : op ≠ .openParen := by
      rintro rfl
      exact hname.1.unmarked '(' (by decide) (by decide)
    have hclose : op ≠ .closeParen := by
      rintro rfl
      exact hname.1.unmarked ')' (by decide) (by decide)
    simp [Operator.nodes, hop, hopen, hclose]
  | user hnone =>
    refine .call hname.1 (fun op hop => ?_) harguments
    simp only [Operator.nodes, List.mem_cons, List.mem_filter] at hop
    rcases hop with rfl | rfl | hop
    -- Both minus signs are called alike, and one of them is in the registry.
    · exact hnone .subtract (by decide)
    · exact hname.2.symm
    · exact hnone op hop.1

theorem Joined.plain_of_sides (h : Joined op a b e) (hop : op ∈ Operator.nodes)
    (harity : op.arity = 2) (ha : a.Plain) (hb : b.Plain) : e.Plain := by
  cases h with
  | conditional =>
    cases hb with
    | operator _ hlen hbranches =>
      refine .operator (by decide) ?_ (List.forall_mem_cons.2 ⟨ha, hbranches⟩)
      rw [List.length_cons, hlen]
      rfl
  | plain _ => exact .operator hop harity.symm (by simpa using ⟨ha, hb⟩)

theorem Derives.plain {limit : Limit} {d : Nat} {c : Category} {s : List Token}
    (h : Derives limit d c s e) (hs : ∀ t ∈ s, t.IsPlain) : e.Plain := by
  have hjoins : ∀ j ∈ Join.all, j.sign ∈ Operator.nodes := by decide +kernel
  have hsigns : ∀ p ∈ leadingSigns, p.2 ∈ Operator.nodes ∧ p.2.arity = 1 := by decide +kernel
  induction h with
  | looser _ _ ih => exact ih hs
  | @join _ j _ _ _ _ _ _ hj _ _ _ hjoined iha ihb =>
    exact hjoined.plain_of_sides (hjoins j hj) (Join.arity_sign j hj)
      (iha fun t ht => hs t (by simp [ht])) (ihb fun t ht => hs t (by simp [ht]))
  | @signed _ sign op _ _ _ hmem _ _ ih =>
    obtain ⟨hop, harity⟩ := hsigns (sign, op) hmem
    exact .operator hop harity.symm (by simpa using ih fun t ht => hs t (by simp [ht]))
  | number hkind =>
    obtain ⟨hfinite, hsign⟩ := (hs _ (List.mem_singleton_self _)).number _ hkind
    exact .constant hfinite hsign
  | name hname hnamed => exact hnamed.plain ((hs _ (by simp)).name hname) nofun
  | bareCall hname _ _ hnamed => exact hnamed.plain ((hs _ (by simp)).name hname) nofun
  | @call _ t o _ initial s _ _ hname _ _ _ _ _ _ hnamed ihinitial ihlast =>
    refine hnamed.plain ((hs _ (by simp)).name hname) fun a ha => ?_
    rcases List.mem_append.1 ha with ha | ha
    · obtain ⟨argument, hargument, rfl⟩ := List.mem_map.1 ha
      refine ihinitial argument hargument fun t ht => hs t ?_
      have hmem : t ∈ initial.flatMap LeadingArgument.tokens :=
        List.mem_flatMap.2 ⟨argument, hargument, List.mem_append_left _ ht⟩
      simp [hmem]
    · rw [List.mem_singleton.1 ha]
      exact ihlast fun t ht => hs t (by simp [ht])
  | group _ _ _ ih => exact ih fun t ht => hs t (by simp [ht])

end Phrases

theorem Reading.plain_ofQueue {source : String} (h : IsPlainLine source) (limit : Limit) :
    ∀ e ∈ (ofQueue limit (.ofLine source)).statements, e.Plain := by
  have hstep : ∀ (q rest : TokenQueue) (e : Expr), (q.HasSigns ∧ ∀ t ∈ q.tokens, t.IsPlain) →
      q.statement ⟨false, limit⟩ = (.ok e, rest) →
        e.Plain ∧ rest.HasSigns ∧ ∀ t ∈ rest.tokens, t.IsPlain := by
    rintro q rest e ⟨hq, hplain⟩ hstatement
    obtain ⟨s, ending, htokens, -, hderives, hend⟩ := TokenQueue.statement_cases hq hstatement
    refine ⟨hderives.plain fun t ht => hplain t (by simp [htokens, ht]), hq.remaining hstatement,
      fun t ht => ?_⟩
    rcases hend with ⟨-, -, rfl⟩ | ⟨comma, -, rfl, -⟩
    · cases ht
    · exact hplain t (by simp [htokens, ht])
  exact forall_upTo hstep _ ⟨TokenQueue.hasSigns_ofLine source, h.isPlain⟩

/-- Two statements of lines without quotes and with finite numerals only are the same if they are
printed alike. -/
theorem unquoted_text_injective [Stack] {limit limit' : Limit} {source source' : String}
    {e e' : Expr}
    {text : String} (hsource : IsPlainLine source) (hsource' : IsPlainLine source')
    (he : e ∈ (Reading.ofQueue limit (.ofLine source)).statements)
    (he' : e' ∈ (Reading.ofQueue limit' (.ofLine source')).statements)
    (htext : e.text = .ok text) (htext' : e'.text = .ok text) : e = e' := by
  have hrender : ∀ {e : Expr}, e.text = .ok text → e.render = text.toList := by
    intro e h
    unfold Expr.text at h
    split at h
    · rw [← Except.ok.inj h, String.toList_ofList]
    · cases h
  have hplain := Reading.plain_ofQueue hsource limit e he
  have hplain' := Reading.plain_ofQueue hsource' limit' e' he'
  exact hplain.render_inj hplain' ((hrender htext).trans (hrender htext').symm)

/-- Both minus signs in one statement, written in two ways. -/
theorem unquoted_text_injective_minus :
    let e : Expr := .operator .subtract [.call "x" [], .operator .negate [.constant (.ofInt 2)]]
    ∃ e₁ ∈ (Reading.ofLine "x - -2").statements, ∃ e₂ ∈ (Reading.ofLine "(x)-(-0b10)").statements,
      e₁.text = .ok "-(x,-(2))" ∧ e₂.text = .ok "-(x,-(2))" ∧ e₁ = e ∧ e₁ = e₂ := by
  intro e
  have he₁ : e ∈ (Reading.ofLine "x - -2").statements := by decide +kernel
  have he₂ : e ∈ (Reading.ofLine "(x)-(-0b10)").statements := by decide +kernel
  have htext : e.text = .ok "-(x,-(2))" := by decide +kernel
  have hsame := unquoted_text_injective (by decide +kernel : IsPlainLine "x - -2")
    (by decide +kernel : IsPlainLine "(x)-(-0b10)") he₁ he₂ htext htext
  exact ⟨e, he₁, e, he₂, htext, htext, rfl, hsame⟩

example : ∃ e₁ ∈ (Reading.ofLine "'f(1)'").statements,
    ∃ e₂ ∈ (Reading.ofLine "f(1)").statements, e₁.text = e₂.text ∧ e₁ ≠ e₂ := by decide +kernel

end Reckon
