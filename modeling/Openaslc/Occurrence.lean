import Mathlib

/-! Where a word first occurs in a list, and the fields that the occurrences
of a separator word leave between them. -/

namespace Occurrence

variable {α : Type*} [DecidableEq α]

def find (word : List α) : List α → Option Nat
  | [] => if word = [] then some 0 else none
  | a :: rest => if word <+: a :: rest then some 0 else (find word rest).map (· + 1)

theorem find_cons (word : List α) (a : α) (rest : List α) : find word (a :: rest) =
    if word <+: a :: rest then some 0 else (find word rest).map (· + 1) := rfl

theorem find_nil {word : List α} (h : word ≠ []) : find word [] = none := if_neg h

theorem find_split {word hay : List α} {i : Nat} (h : find word hay = some i) :
    ∃ l r, hay = l ++ (word ++ r) ∧ l.length = i := by
  induction hay generalizing i with
  | nil =>
    by_cases hw : word = []
    · rw [find, if_pos hw, Option.some.injEq] at h
      exact ⟨[], [], by simp [hw], h⟩
    · rw [find_nil hw] at h
      cases h
  | cons a rest ih =>
    rw [find_cons] at h
    by_cases hp : word <+: a :: rest
    · rw [if_pos hp, Option.some.injEq] at h
      obtain ⟨r, hr⟩ := hp
      exact ⟨[], r, hr.symm, h⟩
    · rw [if_neg hp, Option.map_eq_some_iff] at h
      obtain ⟨j, hj, rfl⟩ := h
      obtain ⟨l, r, rfl, rfl⟩ := ih hj
      exact ⟨a :: l, r, rfl, rfl⟩

theorem find_add_length_le {word hay : List α} {i : Nat} (h : find word hay = some i) :
    i + word.length ≤ hay.length := by
  obtain ⟨l, r, rfl, rfl⟩ := find_split h
  simp only [List.length_append]
  omega

/-- A prefix has the same first occurrence, if it reaches that far. -/
theorem find_take_eq_some_iff {word : List α} (hw : word ≠ []) {hay : List α} {n i : Nat} :
    find word (hay.take n) = some i ↔ find word hay = some i ∧ i + word.length ≤ n := by
  have hpos := List.length_pos_iff.mpr hw
  induction hay generalizing n i with
  | nil => simp [find_nil hw]
  | cons a rest ih =>
    cases n with
    | zero =>
      rw [List.take_zero, find_nil hw]
      simp only [reduceCtorEq, false_iff, not_and]
      omega
    | succ n =>
      have hshort : word <+: a :: rest.take n ↔ word <+: a :: rest ∧ word.length ≤ n + 1 := by
        rw [← List.take_succ_cons, List.prefix_take_iff]
      rw [List.take_succ_cons, find_cons, find_cons]
      by_cases hp : word <+: a :: rest
      · by_cases hn : word.length ≤ n + 1
        · rw [if_pos (hshort.mpr ⟨hp, hn⟩), if_pos hp, Option.some.injEq]
          omega
        · rw [if_neg fun h => hn (hshort.mp h).2, if_pos hp]
          simp only [Option.map_eq_some_iff, ih, Option.some.injEq]
          constructor
          · rintro ⟨j, ⟨_, hj⟩, rfl⟩
            omega
          · rintro ⟨rfl, hle⟩
            omega
      · rw [if_neg fun h => hp (hshort.mp h).1, if_neg hp]
        simp only [Option.map_eq_some_iff, ih]
        constructor
        · rintro ⟨j, ⟨hj, hle⟩, rfl⟩
          exact ⟨⟨j, hj, rfl⟩, by omega⟩
        · rintro ⟨⟨j, hj, rfl⟩, hle⟩
          exact ⟨j, ⟨hj, by omega⟩, rfl⟩

/-- The first occurrence is found wherever the reading starts before it. -/
theorem find_drop {word hay : List α} {i n : Nat} (h : find word hay = some i) (hn : n ≤ i) :
    find word (hay.drop n) = some (i - n) := by
  induction hay generalizing i n with
  | nil =>
    have hle := find_add_length_le h
    simp only [List.length_nil] at hle
    obtain rfl : n = 0 := by omega
    simpa using h
  | cons a rest ih =>
    cases n with
    | zero => simpa using h
    | succ n =>
      rw [find_cons] at h
      by_cases hp : word <+: a :: rest
      · rw [if_pos hp, Option.some.injEq] at h
        omega
      · rw [if_neg hp, Option.map_eq_some_iff] at h
        obtain ⟨j, hj, rfl⟩ := h
        rw [List.drop_succ_cons, ih hj (by omega)]
        congr 1
        omega

theorem find_drop_of_none {word hay : List α} (h : find word hay = none) (n : Nat) :
    find word (hay.drop n) = none := by
  induction hay generalizing n with
  | nil => simpa using h
  | cons a rest ih =>
    cases n with
    | zero => simpa using h
    | succ n =>
      rw [find_cons] at h
      by_cases hp : word <+: a :: rest
      · rw [if_pos hp] at h
        cases h
      · rw [if_neg hp, Option.map_eq_none_iff] at h
        exact ih h n

/-! ### Two words without a common letter -/

omit [DecidableEq α] in
theorem prefix_append_iff {word sep : List α} (hsep : sep ≠ []) (h : word.Disjoint sep)
    (l r : List α) : word <+: l ++ (sep ++ r) ↔ word <+: l := by
  constructor
  · intro hp
    by_cases hlen : word.length ≤ l.length
    · exact List.prefix_of_prefix_length_le hp (List.prefix_append _ _) hlen
    · obtain ⟨c, sep, rfl⟩ := List.exists_cons_of_ne_nil hsep
      have hl : l ++ [c] <+: l ++ (c :: sep ++ r) := by simp
      have hin := List.prefix_of_prefix_length_le hl hp (by simp; omega)
      exact (h (hin.subset (by simp)) List.mem_cons_self).elim
  · intro hp
    exact hp.trans (List.prefix_append _ _)

theorem find_sep_append {word sep : List α} (hw : word ≠ []) (h : word.Disjoint sep)
    (r : List α) : find word (sep ++ r) = (find word r).map (· + sep.length) := by
  induction sep with
  | nil => simp
  | cons c sep ih =>
    have hp : ¬ word <+: c :: (sep ++ r) := fun hp => by
      obtain ⟨b, word, rfl⟩ := List.exists_cons_of_ne_nil hw
      obtain ⟨rfl, _⟩ := List.cons_prefix_cons.mp hp
      exact h List.mem_cons_self List.mem_cons_self
    rw [List.cons_append, find_cons, if_neg hp,
      ih fun _ ha hb => h ha (List.mem_cons_of_mem c hb), Option.map_map]
    rfl

/-- A word without a letter of the separator lies inside one field. -/
theorem find_append_sep {word sep : List α} (hw : word ≠ []) (hsep : sep ≠ [])
    (h : word.Disjoint sep) (l r : List α) : find word (l ++ (sep ++ r)) =
      (find word l).or ((find word r).map (· + (l.length + sep.length))) := by
  induction l with
  | nil =>
    rw [List.nil_append, find_sep_append hw h, find_nil hw]
    simp
  | cons a l ih =>
    have hp : word <+: a :: (l ++ (sep ++ r)) ↔ word <+: a :: l := prefix_append_iff hsep h (a :: l) r
    rw [List.cons_append, find_cons, find_cons]
    by_cases hl : word <+: a :: l
    · rw [if_pos hl, if_pos (hp.mpr hl)]
      rfl
    · rw [if_neg hl, if_neg fun hc => hl (hp.mp hc), ih]
      cases find word l with
      | some i => rfl
      | none =>
        cases find word r with
        | none => rfl
        | some i =>
          simp only [Option.none_or, Option.map_some, List.length_cons, Option.map_none]
          congr 1
          omega

/-! ### Fields -/

/-- What lies between the occurrences of `sep`, read from the left. -/
def fields (sep hay : List α) : List (List α) :=
  match _h : find sep hay with
  | none => [hay]
  | some i => if _hs : sep = [] then [hay] else hay.take i :: fields sep (hay.drop (i + sep.length))
termination_by hay.length
decreasing_by
  have hle := find_add_length_le _h
  have hpos := List.length_pos_iff.mpr _hs
  rw [List.length_drop]
  omega

theorem fields_of_none {sep hay : List α} (h : find sep hay = none) : fields sep hay = [hay] := by
  rw [fields]
  split
  · rfl
  · next i hi =>
    rw [h] at hi
    cases hi

theorem fields_of_some {sep hay : List α} {i : Nat} (hs : sep ≠ []) (h : find sep hay = some i) :
    fields sep hay = hay.take i :: fields sep (hay.drop (i + sep.length)) := by
  rw [fields]
  split
  · next hi =>
    rw [h] at hi
    cases hi
  · next j hj =>
    obtain rfl : i = j := by simpa [h] using hj
    rw [dif_neg hs]

theorem fields_ne_nil (sep hay : List α) : fields sep hay ≠ [] := by
  rw [fields]
  split
  · exact List.cons_ne_nil _ _
  · split <;> exact List.cons_ne_nil _ _

theorem fields_induction {sep : List α} (hs : sep ≠ []) {P : List α → Prop}
    (last : ∀ hay, find sep hay = none → P hay)
    (field : ∀ hay i, find sep hay = some i → P (hay.drop (i + sep.length)) → P hay)
    (hay : List α) : P hay := by
  induction hlen : hay.length using Nat.strong_induction_on generalizing hay with
  | h n ih =>
    cases hf : find sep hay with
    | none => exact last hay hf
    | some i =>
      have hle := find_add_length_le hf
      have hpos := List.length_pos_iff.mpr hs
      refine field hay i hf (ih _ ?_ _ rfl)
      rw [List.length_drop]
      omega

/-- The rest of a text behind the first `word`. -/
def behind (word hay : List α) : Option (List α) :=
  (find word hay).map fun i => hay.drop (i + word.length)

/-- What stands between the first `word` and the next `sep`. -/
def behindUpTo (word sep hay : List α) : Option (List α) :=
  (behind word hay).bind fun rest => (find sep rest).map rest.take

theorem behind_append_sep {word sep : List α} (hw : word ≠ []) (hsep : sep ≠ [])
    (h : word.Disjoint sep) (l r : List α) : behind word (l ++ (sep ++ r)) =
      ((behind word l).map (· ++ (sep ++ r))).or (behind word r) := by
  rw [behind, find_append_sep hw hsep h, behind, behind]
  cases hl : find word l with
  | some i =>
    have hle := find_add_length_le hl
    simp [List.drop_append_of_le_length hle]
  | none =>
    cases find word r with
    | none => rfl
    | some i =>
      have hskip : i + (l.length + sep.length) + word.length =
          (l ++ sep).length + (i + word.length) := by
        rw [List.length_append]
        omega
      simp only [Option.none_or, Option.map_some, Option.map_none]
      rw [hskip, ← List.append_assoc, ← List.drop_drop, List.drop_left]

/-- Reading up to the next separator is reading the first field that contains
the word, the text after the last separator being no field. -/
theorem behindUpTo_eq {word sep : List α} (hw : word ≠ []) (hs : sep ≠ []) (h : word.Disjoint sep)
    (hay : List α) : behindUpTo word sep hay = (fields sep hay).dropLast.findSome? (behind word) := by
  induction hay using fields_induction hs with
  | last hay hlast =>
    rw [fields_of_none hlast, List.dropLast_singleton, List.findSome?_nil, behindUpTo, behind]
    cases find word hay with
    | none => rfl
    | some i => simp [find_drop_of_none hlast]
  | field hay i hi ih =>
    rw [fields_of_some hs hi, List.dropLast_cons_of_ne_nil (fields_ne_nil _ _), List.findSome?_cons,
      ← ih]
    obtain ⟨l, r, rfl, rfl⟩ := find_split hi
    have hr : (l ++ (sep ++ r)).drop (l.length + sep.length) = r := by
      rw [← List.append_assoc, ← List.length_append, List.drop_left]
    rw [List.take_left, hr, behindUpTo, behind_append_sep hw hs h]
    cases hl : behind word l with
    | none => rfl
    | some rest =>
      obtain ⟨j, hj, rfl⟩ := Option.map_eq_some_iff.mp hl
      have hjl := find_add_length_le hj
      have hnext := find_drop hi hjl
      rw [List.drop_append_of_le_length hjl] at hnext
      simp [hnext]

end Occurrence
