import Mathlib

/-! Fields joined by a separator: which fields the joined word determines. -/

namespace Separator

variable {α : Type*} {sep : α} {l l' r r' : List α}

theorem first_field (hl : sep ∉ l) (hl' : sep ∉ l') (h : l ++ sep :: r = l' ++ sep :: r') :
    l = l' ∧ r = r' := by
  rcases List.append_eq_append_iff.mp h with ⟨s, rfl, hr⟩ | ⟨s, rfl, hr⟩
  · cases s with
    | nil => simpa using hr
    | cons a s =>
      obtain ⟨rfl, _⟩ := List.cons_eq_cons.mp hr
      simp at hl'
  · cases s with
    | nil => simpa [eq_comm] using hr
    | cons a s =>
      obtain ⟨rfl, _⟩ := List.cons_eq_cons.mp hr
      simp at hl

theorem last_field (hr : sep ∉ r) (hr' : sep ∉ r') (h : l ++ sep :: r = l' ++ sep :: r') :
    l = l' ∧ r = r' := by
  have hrev : r.reverse ++ sep :: l.reverse = r'.reverse ++ sep :: l'.reverse := by
    simpa using congrArg List.reverse h
  obtain ⟨hright, hleft⟩ := first_field (by simpa using hr) (by simpa using hr') hrev
  exact ⟨List.reverse_inj.mp hleft, List.reverse_inj.mp hright⟩

def Shifted (sep : α) (l r l' r' : List α) : Prop :=
  ∃ s, l' = l ++ sep :: s ∧ r = s ++ sep :: r'

theorem Shifted.ne (h : Shifted sep l r l' r') : l ≠ l' := by
  obtain ⟨s, rfl, _⟩ := h
  intro he
  simpa using congrArg List.length he

/-- Two fields without any restriction: the word can be read with the
separator of either reading moved. -/
theorem two_fields : l ++ sep :: r = l' ++ sep :: r' ↔
    (l = l' ∧ r = r') ∨ Shifted sep l r l' r' ∨ Shifted sep l' r' l r := by
  constructor
  · intro h
    rcases List.append_eq_append_iff.mp h with ⟨s, rfl, hr⟩ | ⟨s, rfl, hr⟩
    · cases s with
      | nil => exact .inl (by simpa using hr)
      | cons a s =>
        obtain ⟨rfl, htail⟩ := List.cons_eq_cons.mp hr
        exact .inr (.inl ⟨s, rfl, htail⟩)
    · cases s with
      | nil => exact .inl (by simpa [eq_comm] using hr)
      | cons a s =>
        obtain ⟨rfl, htail⟩ := List.cons_eq_cons.mp hr
        exact .inr (.inr ⟨s, rfl, htail⟩)
  · rintro (⟨rfl, rfl⟩ | ⟨s, rfl, rfl⟩ | ⟨s, rfl, rfl⟩)
    · rfl
    · simp
    · simp

theorem four_fields {p p' c c' : List α} (hp : sep ∉ p) (hp' : sep ∉ p') (hc : sep ∉ c)
    (hc' : sep ∉ c') :
    p ++ sep :: (l ++ sep :: (r ++ sep :: c)) = p' ++ sep :: (l' ++ sep :: (r' ++ sep :: c')) ↔
      p = p' ∧ c = c' ∧ l ++ sep :: r = l' ++ sep :: r' := by
  constructor
  · intro h
    obtain ⟨rfl, hrest⟩ := first_field hp hp' h
    have hassoc : (l ++ sep :: r) ++ sep :: c = (l' ++ sep :: r') ++ sep :: c' := by
      simpa using hrest
    obtain ⟨hmiddle, rfl⟩ := last_field hc hc' hassoc
    exact ⟨rfl, rfl, hmiddle⟩
  · rintro ⟨rfl, rfl, hmiddle⟩
    have hassoc : (l ++ sep :: r) ++ sep :: c = (l' ++ sep :: r') ++ sep :: c := by rw [hmiddle]
    have hrest : l ++ sep :: (r ++ sep :: c) = l' ++ sep :: (r' ++ sep :: c) := by
      simpa using hassoc
    rw [hrest]

end Separator
