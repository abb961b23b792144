import Mathlib

/-! Resources that are opened and closed, each held by one party at a time. -/

/-- `live` are open now; `opened` and `closed` are all that ever were. -/
structure Custody (α : Type) where
  live : List α := []
  opened : List α := []
  closed : List α := []

namespace Custody

section

variable {α : Type} [DecidableEq α]

/-- What is open is not opened again. -/
def acquire (c : Custody α) (a : α) : Option (Custody α) :=
  if a ∈ c.live then none else some ⟨a :: c.live, c.opened ++ [a], c.closed⟩

def release (c : Custody α) (a : α) : Custody α := ⟨c.live.erase a, c.opened, c.closed ++ [a]⟩

/-- Everything open is held once, and whatever else was opened has been closed. -/
structure Held (c : Custody α) (held : List α) : Prop where
  live : c.live.Perm held
  nodup : held.Nodup
  balance : ∀ a, c.opened.count a = c.closed.count a + c.live.count a

theorem Held.empty : Held ({} : Custody α) [] := ⟨.refl _, .nil, fun _ => rfl⟩

theorem Held.perm {c : Custody α} {held held' : List α} (h : c.Held held) (hperm : held.Perm held') :
    c.Held held' :=
  ⟨h.live.trans hperm, hperm.nodup_iff.mp h.nodup, h.balance⟩

theorem Held.acquire {c c' : Custody α} {held : List α} {a : α} (h : c.Held held)
    (hacquire : c.acquire a = some c') : c'.Held (a :: held) := by
  rw [Custody.acquire] at hacquire
  split at hacquire
  · cases hacquire
  · next hnew =>
    obtain rfl := Option.some.inj hacquire
    refine ⟨h.live.cons a, List.nodup_cons.mpr ⟨?_, h.nodup⟩, fun b => ?_⟩
    · exact fun hmem => hnew (h.live.mem_iff.mpr hmem)
    · have hbalance := h.balance b
      simp only [List.count_append, List.count_cons, List.count_nil, hbalance]
      omega

theorem Held.release {c : Custody α} {held : List α} {a : α} (h : c.Held (a :: held)) :
    (c.release a).Held held := by
  have hlive : (c.live.erase a).Perm held := by
    have herase := h.live.erase a
    rwa [List.erase_cons_head] at herase
  refine ⟨hlive, (List.nodup_cons.mp h.nodup).2, fun b => ?_⟩
  have hbalance := h.balance b
  have hcount : c.live.count b = (a :: c.live.erase a).count b :=
    (List.perm_cons_erase (h.live.mem_iff.mpr List.mem_cons_self)).count_eq b
  rw [List.count_cons] at hcount
  simp only [Custody.release, List.count_append, List.count_cons, List.count_nil, hbalance, hcount]
  omega

theorem Held.mem_live {c : Custody α} {held : List α} (h : c.Held held) {a : α} :
    a ∈ c.live ↔ a ∈ held :=
  h.live.mem_iff

theorem Held.count {c : Custody α} {held : List α} (h : c.Held held) (a : α) :
    c.opened.count a = c.closed.count a + if a ∈ held then 1 else 0 := by
  rw [h.balance a, h.live.count_eq a, h.nodup.count]

end

/-- One holder of a row of them holds something else from now on. -/
theorem flatMap_set_perm {α β : Type} {l : List α} {i : Nat} {a : α} (h : l[i]? = some a) (b : α)
    (f : α → List β) : (f b ++ l.flatMap f).Perm (f a ++ (l.set i b).flatMap f) := by
  induction l generalizing i with
  | nil => cases h
  | cons x l ih =>
    cases i with
    | zero =>
      obtain rfl : x = a := by simpa using h
      exact List.perm_append_comm_assoc _ _ _
    | succ i =>
      have hi := ih (by simpa using h)
      have hout := List.perm_append_comm_assoc (f b) (f x) (l.flatMap f)
      have hin := List.perm_append_comm_assoc (f x) (f a) ((l.set i b).flatMap f)
      simpa only [List.set_cons_succ, List.flatMap_cons] using (hout.trans (hi.append_left _)).trans hin

end Custody
