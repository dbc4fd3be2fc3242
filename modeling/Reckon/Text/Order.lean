set_option autoImplicit false

namespace Reckon.Text

/-- Compares code points from the left; a text precedes its own continuations. -/
def charsPrecede : List Char → List Char → Bool
  | _, [] => false
  | [], _ :: _ => true
  | a :: as, b :: bs =>
    decide (a.toNat < b.toNat) || (decide (a.toNat = b.toNat) && charsPrecede as bs)

def precedes (a b : String) : Bool := charsPrecede a.toList b.toList

theorem charsPrecede_irrefl (as : List Char) : charsPrecede as as = false := by
  induction as with
  | nil => rfl
  | cons a as ih => simp [charsPrecede, ih]

theorem charsPrecede_trans {as bs cs : List Char} (h₁ : charsPrecede as bs = true)
    (h₂ : charsPrecede bs cs = true) : charsPrecede as cs = true := by
  induction as generalizing bs cs with
  | nil =>
    cases cs with
    | nil => cases bs <;> simp [charsPrecede] at h₂
    | cons c cs => rfl
  | cons a as ih =>
    cases bs with
    | nil => simp [charsPrecede] at h₁
    | cons b bs =>
      cases cs with
      | nil => simp [charsPrecede] at h₂
      | cons c cs =>
        simp only [charsPrecede, Bool.or_eq_true, Bool.and_eq_true, decide_eq_true_eq] at h₁ h₂ ⊢
        rcases h₁ with h₁ | ⟨e₁, h₁⟩ <;> rcases h₂ with h₂ | ⟨e₂, h₂⟩
        · exact .inl (by omega)
        · exact .inl (by omega)
        · exact .inl (by omega)
        · exact .inr ⟨by omega, ih h₁ h₂⟩

theorem charsPrecede_total (as bs : List Char) :
    charsPrecede as bs = true ∨ as = bs ∨ charsPrecede bs as = true := by
  induction as generalizing bs with
  | nil => cases bs <;> simp [charsPrecede]
  | cons a as ih =>
    cases bs with
    | nil => simp [charsPrecede]
    | cons b bs =>
      simp only [charsPrecede, Bool.or_eq_true, Bool.and_eq_true, decide_eq_true_eq]
      rcases Nat.lt_trichotomy a.toNat b.toNat with h | h | h
      · exact .inl (.inl h)
      · have hab : a = b := Char.toNat_inj.1 h
        subst hab
        rcases ih bs with h' | h' | h'
        · exact .inl (.inr ⟨rfl, h'⟩)
        · exact .inr (.inl (by rw [h']))
        · exact .inr (.inr (.inr ⟨rfl, h'⟩))
      · exact .inr (.inr (.inl h))

theorem precedes_irrefl (a : String) : precedes a a = false := charsPrecede_irrefl a.toList

theorem precedes_trans {a b c : String} (h₁ : precedes a b = true) (h₂ : precedes b c = true) :
    precedes a c = true := charsPrecede_trans h₁ h₂

theorem precedes_or_eq_or_precedes (a b : String) :
    precedes a b = true ∨ a = b ∨ precedes b a = true := by
  rcases charsPrecede_total a.toList b.toList with h | h | h
  · exact .inl h
  · exact .inr (.inl (String.toList_inj.1 h))
  · exact .inr (.inr h)

variable {α : Type}

def insertByName (name : String) (value : α) : List (String × α) → List (String × α)
  | [] => [(name, value)]
  | entry :: entries =>
    if precedes name entry.1 then (name, value) :: entry :: entries
    else if precedes entry.1 name then entry :: insertByName name value entries
    else (name, value) :: entries

def lookup? (name : String) : List (String × α) → Option α
  | [] => none
  | entry :: entries => if entry.1 = name then some entry.2 else lookup? name entries

def Sorted (entries : List (String × α)) : Prop :=
  entries.Pairwise fun a b => precedes a.1 b.1 = true

theorem lookup_insertByName (name : String) (value : α) (entries : List (String × α))
    (other : String) :
    lookup? other (insertByName name value entries) =
      if name = other then some value else lookup? other entries := by
  induction entries with
  | nil => simp [insertByName, lookup?]
  | cons entry entries ih =>
    unfold insertByName
    split
    · simp [lookup?]
    · rename_i h₁
      split
      · rename_i h₂
        have hne : entry.1 ≠ name := by
          intro h
          rw [h, precedes_irrefl] at h₂
          exact Bool.noConfusion h₂
        simp only [lookup?, ih]
        by_cases h : entry.1 = other
        · have : name ≠ other := fun h' => hne (h.trans h'.symm)
          simp [h, this]
        · simp [h]
      · rename_i h₂
        have heq : name = entry.1 := by
          rcases precedes_or_eq_or_precedes name entry.1 with h | h | h
          · exact absurd h h₁
          · exact h
          · exact absurd h h₂
        by_cases h : name = other
        · simp [lookup?, h]
        · have : entry.1 ≠ other := heq ▸ h
          simp [lookup?, h, this]

theorem mem_insertByName {name : String} {value : α} {entries : List (String × α)}
    {e : String × α} (h : e ∈ insertByName name value entries) :
    e = (name, value) ∨ e ∈ entries := by
  induction entries with
  | nil => simpa [insertByName] using h
  | cons entry entries ih =>
    unfold insertByName at h
    split at h
    · simpa using h
    · split at h
      · rcases List.mem_cons.1 h with h | h
        · exact .inr (by simp [h])
        · rcases ih h with h | h
          · exact .inl h
          · exact .inr (by simp [h])
      · rcases List.mem_cons.1 h with h | h
        · exact .inl h
        · exact .inr (by simp [h])

theorem Sorted.insertByName {entries : List (String × α)} (h : Sorted entries) (name : String)
    (value : α) : Sorted (insertByName name value entries) := by
  induction entries with
  | nil => simp [Text.insertByName, Sorted]
  | cons entry entries ih =>
    obtain ⟨hhead, htail⟩ := List.pairwise_cons.1 h
    unfold Text.insertByName
    split
    · rename_i h₁
      refine List.pairwise_cons.2 ⟨?_, h⟩
      intro e he
      rcases List.mem_cons.1 he with he | he
      · rw [he]
        exact h₁
      · exact precedes_trans h₁ (hhead e he)
    · rename_i h₁
      split
      · rename_i h₂
        refine List.pairwise_cons.2 ⟨?_, ih htail⟩
        intro e he
        rcases mem_insertByName he with he | he
        · rw [he]
          exact h₂
        · exact hhead e he
      · rename_i h₂
        have heq : name = entry.1 := by
          rcases precedes_or_eq_or_precedes name entry.1 with h | h | h
          · exact absurd h h₁
          · exact h
          · exact absurd h h₂
        refine List.pairwise_cons.2 ⟨?_, htail⟩
        intro e he
        rw [heq]
        exact hhead e he

end Reckon.Text
