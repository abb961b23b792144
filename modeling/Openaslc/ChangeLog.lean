import Mathlib

/-! The places where two lists differ, and their replay on the first list. -/

namespace ChangeLog

@[ext] structure Change (α : Type) where
  index : Nat
  previous : α
  current : α
  deriving DecidableEq, Inhabited

variable {α : Type}

def replay (l : List α) (log : List (Change α)) : List α :=
  log.foldl (fun l c => l.set c.index c.current) l

@[simp] theorem replay_nil (l : List α) : replay l [] = l := rfl

theorem replay_cons (l : List α) (c : Change α) (log : List (Change α)) :
    replay l (c :: log) = replay (l.set c.index c.current) log := rfl

theorem replay_append (l : List α) (log log' : List (Change α)) :
    replay l (log ++ log') = replay (replay l log) log' :=
  List.foldl_append

section Changes

variable [DecidableEq α]

/-- The changes from the first list to the second, from index `i` on. -/
def changes (i : Nat) : List α → List α → List (Change α)
  | a :: as, b :: bs =>
    if b ≠ a then ⟨i, a, b⟩ :: changes (i + 1) as bs else changes (i + 1) as bs
  | _, _ => []

theorem replay_changes_append (pre : List α) {as bs : List α} (h : as.length = bs.length) :
    replay (pre ++ as) (changes pre.length as bs) = pre ++ bs := by
  induction as generalizing pre bs with
  | nil =>
    obtain rfl : bs = [] := List.eq_nil_of_length_eq_zero h.symm
    rfl
  | cons a as ih =>
    cases bs with
    | nil => simp at h
    | cons b bs =>
      have hlen : as.length = bs.length := by simpa using h
      have hrest := ih (pre ++ [b]) hlen
      simp only [List.length_append, List.length_singleton, List.append_assoc,
        List.singleton_append] at hrest
      by_cases hb : b = a
      · subst hb
        simpa [changes] using hrest
      · rw [changes, if_pos hb, replay_cons]
        simpa [List.set_append] using hrest

theorem replay_changes {as bs : List α} (h : as.length = bs.length) :
    replay as (changes 0 as bs) = bs :=
  replay_changes_append [] h

end Changes

end ChangeLog
