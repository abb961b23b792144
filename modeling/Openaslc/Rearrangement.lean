import Mathlib

/-! Lists that arise from each other by exchanging neighbours, where `R a b`
allows `a` to move behind `b`. -/

namespace Rearrangement

open Relation

variable {ι α : Type}

def Swap (R : α → α → Prop) (l m : List α) : Prop :=
  ∃ pre a b post, l = pre ++ a :: b :: post ∧ m = pre ++ b :: a :: post ∧ R a b

abbrev Reaches (R : α → α → Prop) : List α → List α → Prop := ReflTransGen (Swap R)

variable {R : α → α → Prop}

theorem Swap.cons {l m : List α} (h : Swap R l m) (c : α) : Swap R (c :: l) (c :: m) := by
  obtain ⟨pre, a, b, post, rfl, rfl, hab⟩ := h
  exact ⟨c :: pre, a, b, post, rfl, rfl, hab⟩

theorem Reaches.cons {l m : List α} (h : Reaches R l m) (c : α) : Reaches R (c :: l) (c :: m) :=
  h.lift (List.cons c) fun _ _ hs => Swap.cons hs c

theorem reaches_behind {a : α} {u : List α} (h : ∀ b ∈ u, R a b) (v : List α) :
    Reaches R (a :: (u ++ v)) (u ++ a :: v) := by
  induction u with
  | nil => exact .refl
  | cons b u ih =>
    have hrest := (ih fun c hc => h c (List.mem_cons_of_mem b hc)).cons b
    exact .head ⟨[], a, b, u ++ v, rfl, rfl, h b List.mem_cons_self⟩ hrest

/-- A permutation of a sorted list is reached by exchanges of its inversions. -/
theorem reaches_of_inversions [LinearOrder ι] {R : ι → ι → Prop} {l m : List ι}
    (hl : l.Pairwise (· < ·)) (hperm : l.Perm m) (hm : m.Pairwise fun p q => q < p → R q p) :
    Reaches R l m := by
  induction l generalizing m with
  | nil =>
    rw [hperm.nil_eq]
  | cons a l ih =>
    obtain ⟨hmin, hl'⟩ := List.pairwise_cons.mp hl
    obtain ⟨u, v, rfl⟩ := List.append_of_mem (hperm.mem_iff.mp List.mem_cons_self)
    have hrest : l.Perm (u ++ v) := (List.perm_cons a).mp (hperm.trans List.perm_middle)
    obtain ⟨hu, hav, huav⟩ := List.pairwise_append.mp hm
    have hfront : ∀ b ∈ u, R a b := by
      intro b hb
      have hlt := hmin b (hrest.mem_iff.mpr (List.mem_append_left v hb))
      exact huav b hb a List.mem_cons_self hlt
    have hm' : (u ++ v).Pairwise fun p q => q < p → R q p := by
      refine List.pairwise_append.mpr ⟨hu, (List.pairwise_cons.mp hav).2, fun p hp q hq => ?_⟩
      exact huav p hp q (List.mem_cons_of_mem a hq)
    exact ((ih hl' hrest hm').cons a).trans (reaches_behind hfront v)

/-- What a permutation turns round may be exchanged, so the permuted list is
reached. -/
theorem reaches_permuted {n : Nat} {R : Fin n → Fin n → Prop} (σ : Equiv.Perm (Fin n))
    (h : ∀ i j, i < j → σ j < σ i → R (σ j) (σ i)) :
    Reaches R (List.finRange n) ((List.finRange n).map σ) := by
  have hsorted : (List.finRange n).Pairwise (· < ·) := List.pairwise_lt_finRange n
  have hperm : (List.finRange n).Perm ((List.finRange n).map σ) :=
    (Equiv.Perm.map_finRange_perm σ).symm
  have hinversions : ((List.finRange n).map σ).Pairwise fun p q => q < p → R q p :=
    List.pairwise_map.mpr (hsorted.imp fun {i j} hij hlt => h i j hij hlt)
  exact reaches_of_inversions hsorted hperm hinversions

end Rearrangement
