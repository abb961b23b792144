import Mathlib

/-! Rows that name a parent row by its key: when an insert-only list of them is
one line of descent. -/

namespace ParentChain

variable {α κ : Type*} (key : α → κ) (parent : α → Option κ)

/-- Exactly one root, every other parent among the earlier rows, and no row
with two children. -/
structure Linear (rows : List α) : Prop where
  root : rows ≠ [] → ∃ i : Nat, (∃ a, rows[i]? = some a ∧ parent a = none) ∧
    ∀ (j : Nat) a, rows[j]? = some a → parent a = none → j = i
  earlier : ∀ (i : Nat) a p, rows[i]? = some a → parent a = some p →
    ∃ (j : Nat) (b : α), j < i ∧ rows[j]? = some b ∧ key b = p
  injective : ∀ (i j : Nat) a b p, rows[i]? = some a → rows[j]? = some b → parent a = some p →
    parent b = some p → i = j

def predecessor (rows : List α) : Nat → Option κ
  | 0 => none
  | i + 1 => rows[i]?.map key

/-- Every row names the row before it. -/
def Chained (rows : List α) : Prop :=
  ∀ (i : Nat) a, rows[i]? = some a → parent a = predecessor key rows i

variable {key parent} {rows : List α}

theorem chained_nil : Chained key parent ([] : List α) := by
  intro i a h
  simp at h

theorem predecessor_length (rows : List α) :
    predecessor key rows rows.length = rows.getLast?.map key := by
  cases rows with
  | nil => rfl
  | cons a rest => simp [predecessor, List.getLast?_eq_getElem?]

theorem predecessor_concat {i : Nat} (h : i ≤ rows.length) (a : α) :
    predecessor key (rows ++ [a]) i = predecessor key rows i := by
  cases i with
  | zero => rfl
  | succ i => rw [predecessor, predecessor, List.getElem?_append_left (by omega)]

theorem getElem?_concat_cases {i : Nat} {a b : α} (h : (rows ++ [a])[i]? = some b) :
    (i < rows.length ∧ rows[i]? = some b) ∨ (i = rows.length ∧ a = b) := by
  rcases Nat.lt_or_ge i rows.length with hi | hi
  · rw [List.getElem?_append_left hi] at h
    exact .inl ⟨hi, h⟩
  · rw [List.getElem?_append_right hi, List.getElem?_singleton] at h
    split at h
    · exact .inr ⟨by omega, Option.some.inj h⟩
    · cases h

theorem chained_concat {a : α} : Chained key parent (rows ++ [a]) ↔
    Chained key parent rows ∧ parent a = rows.getLast?.map key := by
  constructor
  · intro h
    constructor
    · intro i b hb
      have hi := (List.getElem?_eq_some_iff.mp hb).1
      rw [h i b (by rwa [List.getElem?_append_left hi]), predecessor_concat (by omega)]
    · rw [h rows.length a (by simp), predecessor_concat (Nat.le_refl _), predecessor_length]
  · rintro ⟨hrows, ha⟩ i b hb
    rcases getElem?_concat_cases hb with ⟨hi, hb'⟩ | ⟨rfl, rfl⟩
    · rw [hrows i b hb', predecessor_concat (by omega)]
    · rw [ha, predecessor_concat (Nat.le_refl _), predecessor_length]

theorem Linear.root_first (h : Linear key parent rows) {i : Nat} {a : α} (ha : rows[i]? = some a) :
    parent a = none ↔ i = 0 := by
  have hfirst : ∀ b, rows[0]? = some b → parent b = none := by
    intro b hb
    cases hp : parent b with
    | none => rfl
    | some p =>
      obtain ⟨j, _, hj, _⟩ := h.earlier 0 b p hb hp
      omega
  have hne : rows ≠ [] := by
    rintro rfl
    simp at ha
  obtain ⟨i₀, _, hunique⟩ := h.root hne
  have hlt : 0 < rows.length := List.length_pos_of_ne_nil hne
  have hzero : rows[0]? = some rows[0] := List.getElem?_eq_getElem hlt
  have h0 := hunique 0 rows[0] hzero (hfirst _ hzero)
  constructor
  · intro hp
    exact (hunique i a ha hp).trans h0.symm
  · rintro rfl
    exact hfirst a ha

theorem Linear.of_concat {a : α} (h : Linear key parent (rows ++ [a])) : Linear key parent rows := by
  have hlift : ∀ {i : Nat} {b : α}, rows[i]? = some b → (rows ++ [a])[i]? = some b := by
    intro i b hb
    have hi := (List.getElem?_eq_some_iff.mp hb).1
    rwa [List.getElem?_append_left hi]
  refine ⟨fun hne => ?_, fun i b p hb hp => ?_, fun i j b c p hb hc => h.injective i j b c p (hlift hb) (hlift hc)⟩
  · have hlt : 0 < rows.length := List.length_pos_of_ne_nil hne
    have hzero : rows[0]? = some rows[0] := List.getElem?_eq_getElem hlt
    refine ⟨0, ⟨rows[0], hzero, (h.root_first (hlift hzero)).mpr rfl⟩, fun j b hb hp => ?_⟩
    exact (h.root_first (hlift hb)).mp hp
  · obtain ⟨j, c, hj, hc, hkey⟩ := h.earlier i b p (hlift hb) hp
    have hi := (List.getElem?_eq_some_iff.mp hb).1
    rw [List.getElem?_append_left (by omega)] at hc
    exact ⟨j, c, hj, hc, hkey⟩

theorem Chained.of_some (h : Chained key parent rows) {i : Nat} {a : α} {p : κ}
    (ha : rows[i]? = some a) (hp : parent a = some p) :
    ∃ j b, i = j + 1 ∧ rows[j]? = some b ∧ key b = p := by
  have hpred := h i a ha
  rw [hp] at hpred
  cases i with
  | zero => cases hpred
  | succ j =>
    obtain ⟨b, hb, hkey⟩ := Option.map_eq_some_iff.mp hpred.symm
    exact ⟨j, b, rfl, hb, hkey⟩

theorem Chained.linear (hkeys : (rows.map key).Nodup) (h : Chained key parent rows) :
    Linear key parent rows := by
  refine ⟨fun hne => ?_, fun i a p ha hp => ?_, fun i j a b p ha hb hpa hpb => ?_⟩
  · have hpos : 0 < rows.length := List.length_pos_of_ne_nil hne
    have hzero : rows[0]? = some rows[0] := List.getElem?_eq_getElem hpos
    refine ⟨0, ⟨rows[0], hzero, h 0 _ hzero⟩, fun j a ha hp => ?_⟩
    have hlt := (List.getElem?_eq_some_iff.mp ha).1
    have hpred := h j a ha
    rw [hp] at hpred
    cases j with
    | zero => rfl
    | succ j =>
      rw [predecessor, List.getElem?_eq_getElem (by omega)] at hpred
      cases hpred
  · obtain ⟨j, b, rfl, hb, hkey⟩ := h.of_some ha hp
    exact ⟨j, b, Nat.lt_succ_self j, hb, hkey⟩
  · obtain ⟨k, c, rfl, hc, hkey⟩ := h.of_some ha hpa
    obtain ⟨m, d, rfl, hd, hkey'⟩ := h.of_some hb hpb
    have hlt : k < (rows.map key).length := by
      simpa using (List.getElem?_eq_some_iff.mp hc).1
    have hsame : (rows.map key)[k]? = (rows.map key)[m]? := by simp [hc, hd, hkey, hkey']
    rw [(List.getElem?_inj hlt hkeys).mp hsame]

theorem Linear.chained (h : Linear key parent rows) : Chained key parent rows := by
  induction rows using List.reverseRecOn with
  | nil => exact chained_nil
  | append_singleton rows a ih =>
    have hrows := ih h.of_concat
    have hlast : (rows ++ [a])[rows.length]? = some a := by simp
    refine chained_concat.mpr ⟨hrows, ?_⟩
    cases hp : parent a with
    | none =>
      have hlen := (h.root_first hlast).mp hp
      rw [List.length_eq_zero_iff.mp hlen]
      rfl
    | some p =>
      obtain ⟨j, b, hj, hb, rfl⟩ := h.earlier rows.length a p hlast hp
      rw [List.getElem?_append_left hj] at hb
      by_cases hnext : j + 1 < rows.length
      · -- the row after `b` names it already
        have hc := List.getElem?_eq_getElem hnext
        have hpc := hrows (j + 1) _ hc
        rw [predecessor, hb] at hpc
        have hsame := h.injective (j + 1) rows.length _ a _
          (by rw [List.getElem?_append_left hnext, hc]) hlast hpc hp
        omega
      · obtain rfl : j = rows.length - 1 := by omega
        rw [List.getLast?_eq_getElem?, hb]
        rfl

theorem predecessor_eq_some {n : Nat} {p : κ} (h : predecessor key rows n = some p) :
    ∃ m, n = m + 1 ∧ (rows.map key)[m]? = some p := by
  cases n with
  | zero => cases h
  | succ m => exact ⟨m, rfl, by rwa [List.getElem?_map]⟩

theorem predecessor_eq_last_iff (hkeys : (rows.map key).Nodup) {n : Nat} (hn : n ≤ rows.length) :
    predecessor key rows n = rows.getLast?.map key ↔ n = rows.length := by
  rw [← predecessor_length]
  constructor
  · intro h
    cases hp : predecessor key rows rows.length with
    | none =>
      cases hlen : rows.length with
      | zero => omega
      | succ m =>
        rw [hlen, predecessor, List.getElem?_eq_getElem (by omega)] at hp
        cases hp
    | some p =>
      obtain ⟨m, hm, hget⟩ := predecessor_eq_some hp
      obtain ⟨k, hk, hget'⟩ := predecessor_eq_some (h.trans hp)
      have hlt : k < (rows.map key).length := by
        rw [List.length_map]
        omega
      have hkm := (List.getElem?_inj hlt hkeys).mp (hget'.trans hget.symm)
      omega
  · rintro rfl
    rfl

/-- With distinct keys the line of descent is the order of the rows. -/
theorem linear_iff_chained (hkeys : (rows.map key).Nodup) :
    Linear key parent rows ↔ Chained key parent rows :=
  ⟨Linear.chained, Chained.linear hkeys⟩

end ParentChain
