import Mathlib

/-! How a computation that keeps its state when it throws can end, taken apart
at a bind. -/

namespace StateExcept

variable {ε σ α β γ : Type}

theorem bind_eq_ok {x : EStateM ε σ α} {f : α → EStateM ε σ β} {s s' : σ} {b : β} :
    (x >>= f) s = .ok b s' ↔ ∃ a m, x s = .ok a m ∧ f a m = .ok b s' := by
  show EStateM.bind x f s = .ok b s' ↔ _
  cases hx : x s <;> simp [EStateM.bind, hx]

theorem bind_eq_error {x : EStateM ε σ α} {f : α → EStateM ε σ β} {s s' : σ} {e : ε} :
    (x >>= f) s = .error e s' ↔
      x s = .error e s' ∨ ∃ a m, x s = .ok a m ∧ f a m = .error e s' := by
  show EStateM.bind x f s = .error e s' ↔ _
  cases hx : x s <;> simp [EStateM.bind, hx]

theorem bind_of_ok {x : EStateM ε σ α} {s m : σ} {a : α} (h : x s = .ok a m)
    (f : α → EStateM ε σ β) : (x >>= f) s = f a m := by
  show EStateM.bind x f s = f a m
  simp only [EStateM.bind, h]

theorem bind_of_error {x : EStateM ε σ α} {s m : σ} {e : ε} (h : x s = .error e m)
    (f : α → EStateM ε σ β) : (x >>= f) s = .error e m :=
  bind_eq_error.mpr (.inl h)

theorem get_bind (f : σ → EStateM ε σ β) (s : σ) : (get >>= f) s = f s s := rfl

theorem pure_eq (a : α) (s : σ) : (pure a : EStateM ε σ α) s = .ok a s := rfl

/-! ### What a computation leaves alone -/

def final : EStateM.Result ε σ α → σ
  | .ok _ s => s
  | .error _ s => s

/-- However `x` ends, it has not changed what `view` shows of the state. -/
def Preserves (view : σ → γ) (x : EStateM ε σ α) : Prop := ∀ s, view (final (x s)) = view s

theorem Preserves.pure (view : σ → γ) (a : α) : Preserves view (pure a : EStateM ε σ α) :=
  fun _ => rfl

theorem Preserves.throw (view : σ → γ) (e : ε) : Preserves view (throw e : EStateM ε σ α) :=
  fun _ => rfl

theorem Preserves.bind {view : σ → γ} {x : EStateM ε σ α} {f : α → EStateM ε σ β}
    (hx : Preserves view x) (hf : ∀ a, Preserves view (f a)) : Preserves view (x >>= f) := by
  intro s
  have hs := hx s
  cases h : x s with
  | ok a m =>
    rw [h] at hs
    rw [bind_of_ok h]
    exact (hf a m).trans hs
  | error e m =>
    rw [h] at hs
    rw [bind_of_error h]
    exact hs

theorem Preserves.ok {view : σ → γ} {x : EStateM ε σ α} (hx : Preserves view x) {s s' : σ} {a : α}
    (h : x s = .ok a s') : view s' = view s := by
  have hs := hx s
  rwa [h] at hs

theorem Preserves.error {view : σ → γ} {x : EStateM ε σ α} (hx : Preserves view x) {s s' : σ}
    {e : ε} (h : x s = .error e s') : view s' = view s := by
  have hs := hx s
  rwa [h] at hs

/-- However `x` ends, it keeps the invariant. -/
def Keeps (I : σ → Prop) (x : EStateM ε σ α) : Prop := ∀ s, I s → I (final (x s))

theorem Keeps.pure (I : σ → Prop) (a : α) : Keeps I (pure a : EStateM ε σ α) := fun _ h => h

theorem Keeps.throw (I : σ → Prop) (e : ε) : Keeps I (throw e : EStateM ε σ α) := fun _ h => h

theorem Keeps.bind {I : σ → Prop} {x : EStateM ε σ α} {f : α → EStateM ε σ β} (hx : Keeps I x)
    (hf : ∀ a, Keeps I (f a)) : Keeps I (x >>= f) := by
  intro s hs
  have hm := hx s hs
  cases h : x s with
  | ok a m =>
    rw [h] at hm
    rw [bind_of_ok h]
    exact hf a m hm
  | error e m =>
    rw [h] at hm
    rw [bind_of_error h]
    exact hm

theorem Keeps.ok {I : σ → Prop} {x : EStateM ε σ α} (hx : Keeps I x) {s s' : σ} {a : α} (hs : I s)
    (h : x s = .ok a s') : I s' := by
  have hm := hx s hs
  rwa [h] at hm

/-! ### Two runs side by side -/

/-- Both runs return the same in states that `R` relates, or both throw the
same in states that `Q` relates. -/
def Alike (R : α → σ → σ → Prop) (Q : σ → σ → Prop) :
    EStateM.Result ε σ α → EStateM.Result ε σ α → Prop
  | .ok a s, .ok b t => a = b ∧ R a s t
  | .error e s, .error f t => e = f ∧ Q s t
  | _, _ => False

theorem Alike.cases {R : α → σ → σ → Prop} {Q : σ → σ → Prop} {r r' : EStateM.Result ε σ α}
    (h : Alike R Q r r') : (∃ a s t, r = .ok a s ∧ r' = .ok a t ∧ R a s t) ∨
      ∃ e s t, r = .error e s ∧ r' = .error e t ∧ Q s t := by
  cases r with
  | ok a s =>
    cases r' with
    | ok b t =>
      obtain ⟨rfl, hR⟩ := h
      exact .inl ⟨a, s, t, rfl, rfl, hR⟩
    | error f t => exact h.elim
  | error e s =>
    cases r' with
    | ok b t => exact h.elim
    | error f t =>
      obtain ⟨rfl, hQ⟩ := h
      exact .inr ⟨e, s, t, rfl, rfl, hQ⟩

theorem Alike.bind {R : α → σ → σ → Prop} {R' : β → σ → σ → Prop} {Q : σ → σ → Prop}
    {x : EStateM ε σ α} {f : α → EStateM ε σ β} {s t : σ} (hx : Alike R Q (x s) (x t))
    (hf : ∀ a s' t', x s = .ok a s' → R a s' t' → Alike R' Q (f a s') (f a t')) :
    Alike R' Q ((x >>= f) s) ((x >>= f) t) := by
  rcases hx.cases with ⟨a, s', t', hs, ht, hR⟩ | ⟨e, s', t', hs, ht, hQ⟩
  · rw [bind_of_ok hs, bind_of_ok ht]
    exact hf a s' t' hs hR
  · rw [bind_of_error hs, bind_of_error ht]
    exact ⟨rfl, hQ⟩

end StateExcept
