import Mathlib

/-! What became of the elements that a bounded queue was given: passed on, still
waiting, or removed to make room. Elements are numbered as they came. -/

def Ledger.without {α : Type} (removed : List Nat) (elements : List α) : List α :=
  (elements.zipIdx.filter fun p => p.2 ∉ removed).map Prod.fst

/-- The elements from number `settled` on wait; those before it were passed on,
in order, unless they were removed. -/
structure Ledger (α : Type) where
  total : List α
  settled : Nat
  out : List α
  removed : List Nat
  settled_le : settled ≤ total.length
  removed_lt : ∀ i ∈ removed, i < settled
  nodup : removed.Nodup
  out_eq : out = Ledger.without removed (total.take settled)

namespace Ledger

variable {α : Type}

theorem without_append {removed : List Nat} {l : List α} (h : ∀ i ∈ removed, i < l.length)
    (m : List α) : without removed (l ++ m) = without removed l ++ m := by
  have hkept : ((m.zipIdx l.length).filter fun p => p.2 ∉ removed) = m.zipIdx l.length := by
    refine List.filter_eq_self.mpr fun p hp => ?_
    have hle : l.length ≤ p.2 := (List.mem_zipIdx hp).1
    have hnot : p.2 ∉ removed := fun hmem => Nat.not_lt.mpr hle (h p.2 hmem)
    simpa using hnot
  rw [without, List.zipIdx_append, List.filter_append, List.map_append, Nat.zero_add, hkept,
    List.zipIdx_map_fst]
  rfl

theorem without_removed (removed : List Nat) (l : List α) (a : α) :
    without (removed ++ [l.length]) (l ++ [a]) = without removed l := by
  have hl : (l.zipIdx.filter fun p => p.2 ∉ removed ++ [l.length]) =
      l.zipIdx.filter fun p => p.2 ∉ removed := by
    refine List.filter_congr fun p hp => ?_
    have hlt : p.2 < 0 + l.length := (List.mem_zipIdx hp).2.1
    have hne : p.2 ≠ l.length := by omega
    simp [hne]
  have ha : (([a] : List α).zipIdx l.length).filter (fun p => p.2 ∉ removed ++ [l.length]) = [] := by
    simp
  rw [without, List.zipIdx_append, List.filter_append, Nat.zero_add, hl, ha, List.append_nil]
  rfl

theorem length_without (removed : List Nat) (l : List α) :
    (without removed l).length + ((List.range l.length).filter fun i => i ∈ removed).length =
      l.length := by
  have hsnd : (l.zipIdx.filter fun p => p.2 ∉ removed).map Prod.snd =
      (List.range l.length).filter fun i => i ∉ removed := by
    have hnumbers : l.zipIdx.map Prod.snd = List.range l.length := by
      rw [List.zipIdx_map_snd, List.range_eq_range']
    rw [← hnumbers, List.filter_map]
    rfl
  have hlen := congrArg List.length hsnd
  rw [List.length_map] at hlen
  have hsplit := List.length_eq_length_filter_add (fun i => decide (i ∈ removed)) (l := List.range l.length)
  rw [without, List.length_map, hlen]
  simp only [decide_not, List.length_range] at hsplit ⊢
  omega

theorem length_le_without (removed : List Nat) (l : List α) :
    l.length ≤ (without removed l).length + removed.length := by
  have hlen := length_without removed l
  have hnodup : ((List.range l.length).filter fun i => i ∈ removed).Nodup := List.nodup_range.filter _
  have hsub : ((List.range l.length).filter fun i => i ∈ removed) ⊆ removed := by
    intro i hi
    simpa using (List.mem_filter.mp hi).2
  have hle := (List.subperm_of_subset hnodup hsub).length_le
  omega

theorem length_without_of_nodup {removed : List Nat} {l : List α} (hnodup : removed.Nodup)
    (h : ∀ i ∈ removed, i < l.length) : (without removed l).length + removed.length = l.length := by
  have hlen := length_without removed l
  have hle := length_le_without removed l
  have hsub : removed ⊆ (List.range l.length).filter fun i => i ∈ removed := by
    intro i hi
    exact List.mem_filter.mpr ⟨List.mem_range.mpr (h i hi), by simpa using hi⟩
  have hge := (List.subperm_of_subset hnodup hsub).length_le
  omega

/-! ### The operations -/

def empty : Ledger α where
  total := []
  settled := 0
  out := []
  removed := []
  settled_le := Nat.le_refl _
  removed_lt := by simp
  nodup := List.nodup_nil
  out_eq := rfl

def waiting (g : Ledger α) : List α := g.total.drop g.settled

theorem settled_eq (g : Ledger α) : g.settled + g.waiting.length = g.total.length := by
  have hle := g.settled_le
  simp only [waiting, List.length_drop]
  omega

theorem length_take_settled (g : Ledger α) : (g.total.take g.settled).length = g.settled := by
  rw [List.length_take, Nat.min_eq_left g.settled_le]

def arrive (g : Ledger α) (a : α) : Ledger α where
  total := g.total ++ [a]
  settled := g.settled
  out := g.out
  removed := g.removed
  settled_le := by
    have hle := g.settled_le
    rw [List.length_append]
    omega
  removed_lt := g.removed_lt
  nodup := g.nodup
  out_eq := by rw [List.take_append_of_le_length g.settled_le, ← g.out_eq]

def overwrite (g : Ledger α) (a : α) (h : g.settled < g.total.length) : Ledger α where
  total := g.total ++ [a]
  settled := g.settled + 1
  out := g.out
  removed := g.removed ++ [g.settled]
  settled_le := by
    rw [List.length_append]
    exact Nat.add_le_add_right g.settled_le 1
  removed_lt := by
    intro i hi
    rcases List.mem_append.mp hi with hi | hi
    · exact Nat.lt_succ_of_lt (g.removed_lt i hi)
    · rw [List.mem_singleton.mp hi]
      exact Nat.lt_succ_self _
  nodup := by
    rw [← List.concat_eq_append]
    exact g.nodup.concat fun hmem => Nat.lt_irrefl _ (g.removed_lt _ hmem)
  out_eq := by
    have htake : (g.total ++ [a]).take (g.settled + 1) = g.total.take g.settled ++ [g.total[g.settled]] := by
      rw [List.take_append_of_le_length h, List.take_succ_eq_append_getElem h]
    have hremoved := without_removed g.removed (g.total.take g.settled) g.total[g.settled]
    rw [length_take_settled] at hremoved
    rw [htake, hremoved, ← g.out_eq]

theorem out_append_waiting (g : Ledger α) : g.out ++ g.waiting = without g.removed g.total := by
  have hlt : ∀ i ∈ g.removed, i < (g.total.take g.settled).length := by
    rw [length_take_settled]
    exact g.removed_lt
  rw [g.out_eq, waiting, ← without_append hlt, List.take_append_drop]

def pass (g : Ledger α) : Ledger α where
  total := g.total
  settled := g.total.length
  out := g.out ++ g.waiting
  removed := g.removed
  settled_le := Nat.le_refl _
  removed_lt := fun i hi => Nat.lt_of_lt_of_le (g.removed_lt i hi) g.settled_le
  nodup := g.nodup
  out_eq := by rw [out_append_waiting, List.take_length]

@[simp] theorem waiting_arrive (g : Ledger α) (a : α) : (g.arrive a).waiting = g.waiting ++ [a] :=
  List.drop_append_of_le_length g.settled_le

@[simp] theorem waiting_overwrite (g : Ledger α) (a : α) (h : g.settled < g.total.length) :
    (g.overwrite a h).waiting = g.waiting.tail ++ [a] := by
  rw [waiting, waiting, List.tail_drop]
  exact List.drop_append_of_le_length h

@[simp] theorem waiting_pass (g : Ledger α) : g.pass.waiting = [] := List.drop_length

theorem length_total (g : Ledger α) :
    g.out.length + g.waiting.length + g.removed.length = g.total.length := by
  have hlt : ∀ i ∈ g.removed, i < g.total.length :=
    fun i hi => Nat.lt_of_lt_of_le (g.removed_lt i hi) g.settled_le
  have hlen := length_without_of_nodup g.nodup hlt
  rw [← out_append_waiting, List.length_append] at hlen
  exact hlen

end Ledger
