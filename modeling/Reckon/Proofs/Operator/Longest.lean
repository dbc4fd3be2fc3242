import Reckon.Operator.Registry
/-!
The longest name of the registry that a text starts with. The search lengthens a candidate and
stops at the first one that starts no name, which is right because the beginnings of a name are
beginnings of names too (`longest?_eq_iff`).
-/
set_option autoImplicit false

namespace Reckon.Operator

variable {op other : Operator} {best : Option Operator} {text rest candidate : List Char} {c : Char}

theorem name_ne_nil (hop : op ∈ table) : op.name.toList ≠ [] := by
  revert op
  decide

theorem eq_of_name_eq (hop : op ∈ table) (hother : other ∈ table) (h : other.name = op.name) :
    other = op := by
  have hfind := find?_name other hother
  rw [h, find?_name op hop] at hfind
  exact (Option.some.inj hfind).symm

/-- The text starts with the name of the entry, and with no longer one; or it starts with none. -/
def IsLongest : Option Operator → List Char → Prop
  | some op, text => op ∈ table ∧ op.name.toList <+: text ∧
      ∀ other ∈ table, other.name.toList <+: text → other.name.length ≤ op.name.length
  | none, text => ∀ op ∈ table, ¬ op.name.toList <+: text

theorem startsName_iff : startsName text = true ↔
    text ≠ [] ∧ ∃ op ∈ table, text <+: op.name.toList := by
  simp [startsName]

namespace IsLongest

theorem congr (h : IsLongest best text)
    (hsame : ∀ op ∈ table, op.name.toList <+: text ↔ op.name.toList <+: rest) :
    IsLongest best rest := by
  cases best with
  | none => exact fun op hop hpre => h op hop ((hsame op hop).2 hpre)
  | some op =>
    obtain ⟨hop, hpre, hmax⟩ := h
    exact ⟨hop, (hsame op hop).1 hpre,
      fun other hother hpre => hmax other hother ((hsame other hother).2 hpre)⟩

theorem unique {best' : Option Operator} (h : IsLongest best text) (h' : IsLongest best' text) :
    best = best' := by
  cases best with
  | none =>
    cases best' with
    | none => rfl
    | some op' => exact absurd h'.2.1 (h op' h'.1)
  | some op =>
    cases best' with
    | none => exact absurd h.2.1 (h' op h.1)
    | some op' =>
      obtain ⟨hop, hpre, hmax⟩ := h
      obtain ⟨hop', hpre', hmax'⟩ := h'
      have hlength : op.name.toList.length = op'.name.toList.length := by
        rw [String.length_toList, String.length_toList]
        exact Nat.le_antisymm (hmax' op hop hpre) (hmax op' hop' hpre')
      have hname := (List.prefix_of_prefix_length_le hpre hpre' (Nat.le_of_eq hlength)).eq_of_length
        hlength
      rw [eq_of_name_eq hop' hop (String.toList_inj.1 hname)]

theorem nil : IsLongest none [] := by
  intro op hop hpre
  exact name_ne_nil hop (List.prefix_nil.1 hpre)

theorem step (h : IsLongest best candidate) :
    IsLongest ((find? (String.ofList (candidate ++ [c]))).or best) (candidate ++ [c]) := by
  cases hfind : find? (String.ofList (candidate ++ [c])) with
  | some op =>
    have hname : op.name.toList = candidate ++ [c] := by
      rw [name_of_find? hfind, String.toList_ofList]
    refine ⟨List.mem_of_find?_eq_some hfind, hname ▸ List.prefix_refl _, fun other _ hpre => ?_⟩
    have hlength := (hname ▸ hpre : other.name.toList <+: op.name.toList).length_le
    rwa [String.length_toList, String.length_toList] at hlength
  | none =>
    refine h.congr fun op hop => ?_
    rw [List.prefix_concat_iff]
    refine ⟨.inr, fun hpre => hpre.resolve_left fun hname => ?_⟩
    have hnone := List.find?_eq_none.1 hfind op hop
    rw [← hname, String.ofList_toList] at hnone
    exact hnone (beq_self_eq_true op.name)

theorem stop (h : IsLongest best candidate) (hstop : startsName (candidate ++ [c]) = false) :
    IsLongest best (candidate ++ c :: rest) := by
  refine h.congr fun op hop => ⟨fun hpre => hpre.trans (List.prefix_append ..), fun hpre => ?_⟩
  have hnext : candidate ++ [c] <+: candidate ++ c :: rest := ⟨rest, by simp⟩
  rcases List.prefix_or_prefix_of_prefix hpre hnext with hshort | hlong
  · rcases List.prefix_concat_iff.1 hshort with hname | hpre
    · have hstart : startsName (candidate ++ [c]) = true :=
        startsName_iff.2 ⟨by simp, op, hop, hname ▸ List.prefix_refl _⟩
      rw [hstop] at hstart
      cases hstart
    · exact hpre
  · have hstart : startsName (candidate ++ [c]) = true :=
      startsName_iff.2 ⟨by simp, op, hop, hlong⟩
    rw [hstop] at hstart
    cases hstart

theorem grow (h : IsLongest best candidate) (cs : List Char) :
    IsLongest (grow best candidate cs) (candidate ++ cs) := by
  induction cs generalizing best candidate with
  | nil => rwa [List.append_nil]
  | cons c cs ih =>
    cases hstarts : startsName (candidate ++ [c]) with
    | true =>
      have hrest := ih (h.step (c := c))
      rw [List.append_assoc] at hrest
      simp only [Operator.grow, hstarts, if_true]
      exact hrest
    | false =>
      have hstop : IsLongest best (candidate ++ c :: cs) := h.stop hstarts
      simpa only [Operator.grow, hstarts, Bool.false_eq_true, if_false] using hstop

end IsLongest

theorem longest?_eq_iff : longest? text = best ↔ IsLongest best text := by
  have hfound : IsLongest (longest? text) text := IsLongest.nil.grow text
  exact ⟨fun h => h ▸ hfound, hfound.unique⟩

theorem longest?_congr
    (h : ∀ op ∈ table, op.name.toList <+: text ↔ op.name.toList <+: rest) :
    longest? text = longest? rest :=
  longest?_eq_iff.2 ((longest?_eq_iff.1 rfl).congr fun op hop => (h op hop).symm)

theorem longest?_mem (h : longest? text = some op) : op ∈ table ∧ op.name.toList <+: text :=
  have hlongest : IsLongest (some op) text := longest?_eq_iff.1 h
  ⟨hlongest.1, hlongest.2.1⟩

end Reckon.Operator
