import Mathlib

/-! The length of the run of `true` values that ends just before a position. -/

namespace Streak

def streak (f : Nat → Bool) : Nat → Nat
  | 0 => 0
  | n + 1 => if f n then streak f n + 1 else 0

theorem streak_of_true {f : Nat → Bool} {n : Nat} (h : f n = true) :
    streak f (n + 1) = streak f n + 1 := by
  simp [streak, h]

theorem streak_of_false {f : Nat → Bool} {n : Nat} (h : f n = false) : streak f (n + 1) = 0 := by
  simp [streak, h]

theorem streak_congr {f g : Nat → Bool} {n : Nat} (h : ∀ k < n, f k = g k) :
    streak f n = streak g n := by
  induction n with
  | zero => rfl
  | succ n ih =>
    have hn := h n (Nat.lt_succ_self n)
    have hrest := ih fun k hk => h k (Nat.lt_succ_of_lt hk)
    rw [streak, streak, hn, hrest]

theorem streak_le (f : Nat → Bool) (n : Nat) : streak f n ≤ n := by
  induction n with
  | zero => exact Nat.le_refl 0
  | succ n ih =>
    cases h : f n with
    | true => rw [streak_of_true h]; omega
    | false => rw [streak_of_false h]; omega

/-- A streak is at least `k` long when the last `k` values are all true. -/
theorem le_streak_iff (f : Nat → Bool) (n k : Nat) :
    k ≤ streak f n ↔ k ≤ n ∧ ∀ i, n - k ≤ i → i < n → f i = true := by
  induction n generalizing k with
  | zero => simp [streak]
  | succ n ih =>
    by_cases hk : k = 0
    · subst k
      simp
      omega
    cases hf : f n with
    | false =>
      rw [streak_of_false hf]
      refine ⟨fun h => by omega, fun h => ?_⟩
      have hn := h.2 n (by omega) (by omega)
      rw [hf] at hn
      cases hn
    | true =>
      rw [streak_of_true hf]
      have hi := ih (k - 1)
      have he : n + 1 - k = n - (k - 1) := by omega
      constructor
      · intro h
        obtain ⟨hle, hall⟩ := hi.mp (by omega)
        refine ⟨by omega, fun i hlo hhi => ?_⟩
        by_cases hin : i = n
        · rw [hin, hf]
        · exact hall i (by omega) (by omega)
      · rintro ⟨hle, hall⟩
        have hs := hi.mpr ⟨by omega, fun i hlo hhi => hall i (by omega) (by omega)⟩
        omega

theorem streak_add {f : Nat → Bool} {m d : Nat} (h : ∀ i, m ≤ i → i < m + d → f i = true) :
    streak f (m + d) = streak f m + d := by
  induction d with
  | zero => rfl
  | succ d ih =>
    have hd := ih fun i hlo hhi => h i hlo (by omega)
    have hlast := streak_of_true (h (m + d) (by omega) (by omega))
    rw [← Nat.add_assoc, hlast, hd, Nat.add_assoc]

theorem streak_sub {f : Nat → Bool} {n d : Nat} (h : d ≤ streak f n) :
    streak f (n - d) = streak f n - d := by
  obtain ⟨hle, hall⟩ := (le_streak_iff f n d).mp h
  have hadd := @streak_add f (n - d) d fun i hlo hhi => hall i hlo (by omega)
  rw [Nat.sub_add_cancel hle] at hadd
  omega

end Streak

/-! ### Functions that do not look ahead -/

/-- The value at a position depends on the argument up to that position. -/
def Causal {α β : Type*} (F : (Nat → α) → Nat → β) : Prop :=
  ∀ f g n, (∀ k ≤ n, f k = g k) → F f n = F g n

namespace Causal

variable {α β γ : Type*}

theorem agree {F : (Nat → α) → Nat → β} (h : Causal F) {f g : Nat → α} {n : Nat}
    (hfg : ∀ k ≤ n, f k = g k) : ∀ k ≤ n, F f k = F g k :=
  fun k hk => h f g k fun i hi => hfg i (hi.trans hk)

theorem id : Causal fun f : Nat → α => f := fun _ _ n h => h n (Nat.le_refl n)

theorem comp {F : (Nat → α) → Nat → β} {G : (Nat → β) → Nat → γ} (hG : Causal G)
    (hF : Causal F) : Causal fun f => G (F f) :=
  fun f g n h => hG (F f) (F g) n (hF.agree h)

theorem map (op : α → β) : Causal fun f n => op (f n) :=
  fun _ _ n h => congrArg op (h n (Nat.le_refl n))

theorem map₂ {δ : Type*} {F : (Nat → α) → Nat → β} {G : (Nat → α) → Nat → γ} (hF : Causal F)
    (hG : Causal G) (op : β → γ → δ) : Causal fun f n => op (F f n) (G f n) := by
  intro f g n h
  have hf := hF f g n h
  have hg := hG f g n h
  simp only [hf, hg]

/-- A streak looks back from its position, not at it. -/
theorem streak : Causal fun (f : Nat → Bool) n => Streak.streak f (n + 1) := by
  intro f g n h
  apply Streak.streak_congr
  intro k hk
  exact h k (Nat.le_of_lt_succ hk)

end Causal
