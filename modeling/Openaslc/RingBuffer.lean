import Mathlib

/-! A ring of fixed capacity. A full one overwrites its oldest element. -/

/-- The elements are the `count` slots before `head`; the others are stale. -/
structure RingBuffer (α : Type) (cap : Nat) where
  slots : Vector α cap
  head : Nat
  count : Nat
  head_lt : head < cap
  count_le : count ≤ cap

namespace RingBuffer

variable {α : Type} {cap : Nat}

theorem cap_pos (r : RingBuffer α cap) : 0 < cap := Nat.zero_lt_of_lt r.head_lt

/-- The slot of the element with this many older ones. -/
def position (r : RingBuffer α cap) (age : Nat) : Nat := (r.head + (cap - r.count) + age) % cap

def get (r : RingBuffer α cap) (i : Nat) : α := r.slots.get ⟨i % cap, Nat.mod_lt _ r.cap_pos⟩

def contents (r : RingBuffer α cap) : List α := (List.range r.count).map fun i => r.get (r.position i)

/-- The slot at `head` is changed by `f`, which may keep some of what it held. -/
def push (r : RingBuffer α cap) (f : α → α) : RingBuffer α cap where
  slots := r.slots.set r.head (f (r.get r.head)) r.head_lt
  head := (r.head + 1) % cap
  count := if r.count < cap then r.count + 1 else r.count
  head_lt := Nat.mod_lt _ r.cap_pos
  count_le := by
    have hle := r.count_le
    split <;> omega

def clear (r : RingBuffer α cap) : RingBuffer α cap := { r with count := 0, count_le := Nat.zero_le _ }

@[simp] theorem length_contents (r : RingBuffer α cap) : r.contents.length = r.count := by
  simp [contents]

@[simp] theorem contents_clear (r : RingBuffer α cap) : r.clear.contents = [] := rfl

theorem position_lt (r : RingBuffer α cap) (age : Nat) : r.position age < cap :=
  Nat.mod_lt _ r.cap_pos

theorem position_count (r : RingBuffer α cap) : r.position r.count = r.head := by
  have hle := r.count_le
  have hsum : r.head + (cap - r.count) + r.count = r.head + cap := by omega
  rw [position, hsum, Nat.add_mod_right, Nat.mod_eq_of_lt r.head_lt]

theorem position_ne_head (r : RingBuffer α cap) {age : Nat} (hage : age < r.count)
    (hstays : r.count < cap ∨ 0 < age) : r.position age ≠ r.head := by
  have hle := r.count_le
  have hlt := r.head_lt
  rw [position]
  by_cases hwrap : r.head + (cap - r.count) + age < cap
  · rw [Nat.mod_eq_of_lt hwrap]
    omega
  · rw [Nat.mod_eq_sub_mod (Nat.not_lt.mp hwrap), Nat.mod_eq_of_lt (by omega)]
    omega

theorem get_push_head (r : RingBuffer α cap) (f : α → α) :
    (r.push f).get r.head = f (r.get r.head) := by
  have hmod : r.head % cap = r.head := Nat.mod_eq_of_lt r.head_lt
  simp [get, push, Vector.get_eq_getElem, hmod]

theorem get_push_of_ne (r : RingBuffer α cap) (f : α → α) {i : Nat} (hi : i < cap) (h : i ≠ r.head) :
    (r.push f).get i = r.get i := by
  have hmod : i % cap = i := Nat.mod_eq_of_lt hi
  simp [get, push, Vector.get_eq_getElem, hmod, h.symm]

theorem position_push_room (r : RingBuffer α cap) (f : α → α) (h : r.count < cap) (age : Nat) :
    (r.push f).position age = r.position age := by
  have hsum : r.head + 1 + (cap - (r.count + 1) + age) = r.head + (cap - r.count) + age := by omega
  simp only [position, push, if_pos h]
  rw [Nat.add_assoc, Nat.mod_add_mod, hsum]

theorem position_push_full (r : RingBuffer α cap) (f : α → α) (h : r.count = cap) (age : Nat) :
    (r.push f).position age = r.position (age + 1) := by
  have hnot : ¬ r.count < cap := by omega
  have hsum : r.head + 1 + (cap - r.count + age) = r.head + (cap - r.count) + (age + 1) := by omega
  simp only [position, push, if_neg hnot]
  rw [Nat.add_assoc, Nat.mod_add_mod, hsum]

theorem contents_push_room (r : RingBuffer α cap) (f : α → α) (h : r.count < cap) :
    (r.push f).contents = r.contents ++ [f (r.get r.head)] := by
  have hcount : (r.push f).count = r.count + 1 := if_pos h
  have hnew : (r.push f).get ((r.push f).position r.count) = f (r.get r.head) := by
    rw [position_push_room r f h, position_count, get_push_head]
  have hold : ∀ age ∈ List.range r.count,
      (r.push f).get ((r.push f).position age) = r.get (r.position age) := by
    intro age hage
    rw [position_push_room r f h]
    exact get_push_of_ne r f (r.position_lt age) (r.position_ne_head (List.mem_range.mp hage) (.inl h))
  rw [contents, hcount, List.range_succ, List.map_append, List.map_congr_left hold, List.map_cons, hnew]
  rfl

theorem contents_push_full (r : RingBuffer α cap) (f : α → α) (h : r.count = cap) :
    (r.push f).contents = r.contents.tail ++ [f (r.get r.head)] := by
  obtain ⟨n, hn⟩ : ∃ n, r.count = n + 1 := Nat.exists_eq_succ_of_ne_zero (by have := r.cap_pos; omega)
  have hcount : (r.push f).count = n + 1 := (if_neg (by omega)).trans hn
  have hnew : (r.push f).get ((r.push f).position n) = f (r.get r.head) := by
    rw [position_push_full r f h, ← hn, position_count, get_push_head]
  have hold : ∀ age ∈ List.range n,
      (r.push f).get ((r.push f).position age) = r.get (r.position (age + 1)) := by
    intro age hage
    have hlt : age + 1 < r.count := by
      have := List.mem_range.mp hage
      omega
    rw [position_push_full r f h]
    exact get_push_of_ne r f (r.position_lt _) (r.position_ne_head hlt (.inr age.succ_pos))
  have htail : r.contents.tail = (List.range n).map fun age => r.get (r.position (age + 1)) := by
    rw [contents, hn, List.range_succ_eq_map, List.map_cons, List.tail_cons, List.map_map]
    rfl
  rw [htail, contents, hcount, List.range_succ, List.map_append, List.map_congr_left hold,
    List.map_cons, hnew]
  rfl

end RingBuffer
