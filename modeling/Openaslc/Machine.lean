import Mathlib

/-! Runs of a labelled machine whose events may be disabled. -/

namespace Machine

variable {State Event : Type}

/-- The state after a list of events, if each was enabled in its turn. -/
def run (step : State → Event → Option State) (s : State) (events : List Event) : Option State :=
  events.foldlM step s

variable {step : State → Event → Option State}

@[simp] theorem run_nil (s : State) : run step s [] = some s := rfl

theorem run_cons {s t : State} {e : Event} {es : List Event} :
    run step s (e :: es) = some t ↔ ∃ m, step s e = some m ∧ run step m es = some t := by
  simp [run, List.foldlM_cons, Option.bind_eq_some_iff]

theorem run_append {s t : State} {es fs : List Event} :
    run step s (es ++ fs) = some t ↔ ∃ m, run step s es = some m ∧ run step m fs = some t := by
  simp [run, List.foldlM_append, Option.bind_eq_some_iff]

theorem run_singleton {s t : State} {e : Event} :
    run step s [e] = some t ↔ step s e = some t := by
  simp [run]

/-- What every allowed event preserves, every run of allowed events preserves. -/
theorem run_invariant (I : State → Prop) {allowed : Event → Prop}
    (hstep : ∀ s e t, I s → allowed e → step s e = some t → I t) {s t : State} {es : List Event}
    (hs : I s) (hes : ∀ e ∈ es, allowed e) (h : run step s es = some t) : I t := by
  induction es generalizing s with
  | nil =>
    obtain rfl : s = t := by simpa using h
    exact hs
  | cons e es ih =>
    obtain ⟨m, hm, hrest⟩ := run_cons.mp h
    have hm' := hstep s e m hs (hes e List.mem_cons_self) hm
    exact ih hm' (fun e' he' => hes e' (List.mem_cons_of_mem _ he')) hrest

theorem run_concat {s t : State} {es : List Event} {e : Event} :
    run step s (es ++ [e]) = some t ↔ ∃ m, run step s es = some m ∧ step m e = some t := by
  simp only [run_append, run_singleton]

/-- Induction over a run, with the events so far and that they led here. -/
theorem run_induction (P : List Event → State → Prop) {s₀ : State} (hstart : P [] s₀)
    (hstep : ∀ es s e t, run step s₀ es = some s → P es s → step s e = some t → P (es ++ [e]) t)
    {es : List Event} {s : State} (h : run step s₀ es = some s) : P es s := by
  induction es using List.reverseRecOn generalizing s with
  | nil =>
    obtain rfl : s₀ = s := by simpa using h
    exact hstart
  | append_singleton es e ih =>
    obtain ⟨m, hm, hlast⟩ := run_concat.mp h
    exact hstep es m e s hm (ih hm) hlast

/-- What is seen at the events of a run, each in the state before it. -/
def observed {Obs : Type} (step : State → Event → Option State) (look : State → Event → List Obs) :
    State → List Event → List Obs
  | _, [] => []
  | s, e :: rest =>
    match step s e with
    | some t => look s e ++ observed step look t rest
    | none => []

theorem observed_append {Obs : Type} {look : State → Event → List Obs} {s m : State}
    {es : List Event} (h : run step s es = some m) (fs : List Event) :
    observed step look s (es ++ fs) = observed step look s es ++ observed step look m fs := by
  induction es generalizing s with
  | nil =>
    obtain rfl : s = m := by simpa using h
    rfl
  | cons e es ih =>
    obtain ⟨s', hs', hrest⟩ := run_cons.mp h
    have hi := ih hrest
    simp only [List.cons_append, observed, hs', hi, List.append_assoc]

theorem observed_concat {Obs : Type} {look : State → Event → List Obs} {s m t : State}
    {es : List Event} {e : Event} (h : run step s es = some m) (hstep : step m e = some t) :
    observed step look s (es ++ [e]) = observed step look s es ++ look m e := by
  rw [observed_append h, observed, hstep]
  simp [observed]

theorem mem_observed {Obs : Type} {look : State → Event → List Obs} {s : State} {es : List Event}
    {o : Obs} (h : o ∈ observed step look s es) : ∃ e ∈ es, ∃ m, o ∈ look m e := by
  induction es generalizing s with
  | nil => cases h
  | cons e es ih =>
    rw [observed] at h
    split at h
    · rcases List.mem_append.mp h with hhere | hlater
      · exact ⟨e, List.mem_cons_self, s, hhere⟩
      · obtain ⟨e', he', hm⟩ := ih hlater
        exact ⟨e', List.mem_cons_of_mem _ he', hm⟩
    · cases h

/-- A condition on every event of a run and the states around it. -/
def Along (step : State → Event → Option State) (C : State → Event → State → Prop) :
    State → List Event → Prop
  | _, [] => True
  | s, e :: es => ∀ t, step s e = some t → C s e t ∧ Along step C t es

theorem along_iff (I : State → Prop) {C D : State → Event → State → Prop}
    (hstep : ∀ s e t, I s → step s e = some t → I t ∧ (C s e t ↔ D s e t)) {s : State} (hs : I s)
    (es : List Event) : Along step C s es ↔ Along step D s es := by
  induction es generalizing s with
  | nil => exact Iff.rfl
  | cons e es ih =>
    simp only [Along]
    refine forall_congr' fun t => forall_congr' fun ht => ?_
    obtain ⟨hI, hiff⟩ := hstep s e t hs ht
    rw [hiff, ih hI]

end Machine
