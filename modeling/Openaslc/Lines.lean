import Mathlib

/-! Texts of lines, each ended by a separator that a line may itself contain. -/

namespace Lines

variable {α : Type*} [DecidableEq α] {sep : α}

def text (sep : α) (lines : List (List α)) : List α := lines.flatMap (· ++ [sep])

/-- Splitting the text splits each line. -/
theorem splitOn_text (lines : List (List α)) :
    (text sep lines).splitOn sep = lines.flatMap (List.splitOn sep) ++ [[]] := by
  induction lines with
  | nil => rfl
  | cons line lines ih =>
    have hfirst : text sep (line :: lines) = line ++ sep :: text sep lines := by
      simp [text]
    rw [hfirst, List.splitOn_append_cons_self, ih, List.flatMap_cons, List.append_assoc]

theorem notMem_of_mem_splitOn {l piece : List α} (h : piece ∈ l.splitOn sep) : sep ∉ piece := by
  induction l generalizing piece with
  | nil =>
    rw [List.splitOn_nil, List.mem_singleton] at h
    rw [h]
    exact List.not_mem_nil
  | cons a l ih =>
    obtain ⟨first, rest, hl⟩ := List.exists_cons_of_ne_nil (List.splitOn_ne_nil sep l)
    rw [List.splitOn_cons_eq_if_modifyHead, hl] at h
    rw [hl] at ih
    by_cases ha : a = sep
    · rw [if_pos (beq_iff_eq.mpr ha)] at h
      rcases List.mem_cons.mp h with rfl | h
      · exact List.not_mem_nil
      · exact ih h
    · rw [if_neg (by simpa using ha), List.modifyHead_cons] at h
      rcases List.mem_cons.mp h with rfl | h
      · have hfirst := ih (List.mem_cons_self (a := first))
        simpa [Ne.symm ha] using hfirst
      · exact ih (List.mem_cons_of_mem first h)

theorem splitOn_append {head : List α} (h : sep ∉ head) {l first : List α} {rest : List (List α)}
    (hl : l.splitOn sep = first :: rest) : (head ++ l).splitOn sep = (head ++ first) :: rest := by
  induction head with
  | nil => exact hl
  | cons a head ih =>
    obtain ⟨ha, hhead⟩ : sep ≠ a ∧ sep ∉ head := by simpa using h
    rw [List.cons_append, List.splitOn_cons_eq_if_modifyHead, ih hhead,
      if_neg (by simpa using ha.symm)]
    rfl

/-- What splits into more than one line is longer than the first two together. -/
theorem length_lt_of_splitOn {l first second : List α} {rest : List (List α)}
    (h : l.splitOn sep = first :: second :: rest) : first.length + second.length < l.length := by
  have hl : [sep].intercalate (l.splitOn sep) = l := List.intercalate_splitOn sep
  rw [h, List.intercalate_cons_cons] at hl
  cases rest with
  | nil =>
    rw [← hl]
    simp
  | cons third rest =>
    rw [← hl, List.intercalate_cons_cons]
    simp

end Lines
