import Openaslc.Machine

/-! What is seen of a history late, through copies and queues that keep the
order: some values never, others for long, none before an earlier one. -/

namespace Delay

variable {α : Type}

/-- `seen` are values of `history`, none from before the one seen before it. -/
inductive Samples : List α → List α → Prop
  | nil (history : List α) : Samples history []
  | skip {history seen : List α} (a : α) (h : Samples history seen) : Samples (a :: history) seen
  | take {history seen : List α} (a : α) (h : Samples (a :: history) seen) :
      Samples (a :: history) (a :: seen)

namespace Samples

variable {history seen : List α}

theorem eq_nil (h : Samples ([] : List α) seen) : seen = [] := by
  cases h
  rfl

theorem append_history (h : Samples history seen) (later : List α) :
    Samples (history ++ later) seen := by
  induction h with
  | nil history => exact .nil _
  | skip a _ ih => exact .skip a ih
  | take a _ ih => exact .take a ih

theorem sublist (h : Samples history seen) {part : List α} (hpart : part.Sublist seen) :
    Samples history part := by
  induction h generalizing part with
  | nil history =>
    obtain rfl := List.sublist_nil.mp hpart
    exact .nil _
  | skip a _ ih => exact .skip a (ih hpart)
  | take a _ ih =>
    cases hpart with
    | cons _ hpart => exact ih hpart
    | cons_cons _ hpart => exact .take a (ih hpart)

/-- A value may be seen again at once. -/
theorem again {pre post : List α} {a : α} (h : Samples history (pre ++ a :: post)) :
    Samples history (pre ++ a :: a :: post) := by
  generalize hseen : pre ++ a :: post = seen at h
  induction h generalizing pre with
  | nil history => simp at hseen
  | skip b _ ih => exact .skip b (ih hseen)
  | take b h ih =>
    cases pre with
    | nil =>
      obtain ⟨rfl, rfl⟩ := List.cons.inj hseen
      exact .take a (.take a h)
    | cons c pre =>
      obtain ⟨rfl, hrest⟩ := List.cons.inj hseen
      exact .take c (ih hrest)

theorem of_mem {a : α} (h : a ∈ history) : Samples history [a] := by
  induction history with
  | nil => cases h
  | cons b history ih =>
    rcases List.mem_cons.mp h with rfl | hlater
    · exact .take a (.nil _)
    · exact .skip b (ih hlater)

/-- The last value of the history may be seen after all others. -/
theorem latest {a : α} (h : Samples (history ++ [a]) seen) : Samples (history ++ [a]) (seen ++ [a]) := by
  generalize hall : history ++ [a] = all at h
  induction h generalizing history with
  | nil all => exact of_mem (hall ▸ List.mem_append_right history List.mem_cons_self)
  | skip b h ih =>
    cases history with
    | nil =>
      obtain ⟨rfl, rfl⟩ := List.cons.inj hall
      rw [h.eq_nil]
      exact .take a (.nil _)
    | cons c history => exact .skip b (ih (List.cons.inj hall).2)
  | take b _ ih => exact .take b (ih hall)

/-- One value is seen as often as one likes. -/
theorem constant {a : α} (h : ∀ b ∈ seen, b = a) : Samples [a] seen := by
  induction seen with
  | nil => exact .nil _
  | cons b seen ih =>
    obtain rfl := h b List.mem_cons_self
    exact .take b (ih fun c hc => h c (List.mem_cons_of_mem b hc))

end Samples

/-! ### Values on their way -/

/-- Whatever was seen before them, `before` may be replaced by `after`. -/
def Moves (before after : List α) : Prop :=
  ∀ history earlier, Samples history (earlier ++ before) → Samples history (earlier ++ after)

theorem Moves.of_sublist {before after : List α} (h : after.Sublist before) : Moves before after :=
  fun _ _ hs => hs.sublist (h.append_left _)

theorem Moves.again (pre post : List α) (a : α) : Moves (pre ++ a :: post) (pre ++ a :: a :: post) := by
  intro history earlier hs
  rw [← List.append_assoc] at hs ⊢
  exact hs.again

theorem Moves.trans {before between after : List α} (h : Moves before between)
    (h' : Moves between after) : Moves before after :=
  fun history earlier hs => h' history earlier (h history earlier hs)

/-- A step of what is shown, the values on their way to it, oldest first, and
their source. -/
inductive Passes : α → List α → α → α → List α → α → Prop
  | moved {transit transit' : List α} (shown source : α)
      (h : Moves (transit ++ [source]) (transit' ++ [source])) :
      Passes shown transit source shown transit' source
  | showed (shown shown' source : α) (transit : List α) :
      Passes shown (shown' :: transit) source shown' transit source
  | renewed (shown source source' : α) (transit : List α) :
      Passes shown transit source shown transit source'

theorem Passes.stays (shown : α) (transit : List α) (source : α) :
    Passes shown transit source shown transit source :=
  .moved shown source fun _ _ hs => hs

theorem Passes.samples {shown source shown' source' : α} {transit transit' : List α}
    (h : Passes shown transit source shown' transit' source') {history earlier : List α}
    (hs : Samples (history ++ [source]) (earlier ++ shown :: (transit ++ [source]))) :
    Samples (history ++ [source] ++ [source'])
      (earlier ++ [shown] ++ shown' :: (transit' ++ [source'])) := by
  have hagain := hs.again
  cases h with
  | moved _ _ hmoves =>
    have hmoved := hmoves (history ++ [source]) (earlier ++ [shown, shown]) (by simpa using hagain)
    simpa using hmoved.append_history [source]
  | showed => simpa using hs.append_history [source]
  | renewed =>
    have hfront : (earlier ++ shown :: shown :: transit).Sublist
        (earlier ++ shown :: shown :: (transit ++ [source])) := by simp
    have hlatest := ((hagain.sublist hfront).append_history [source']).latest
    simpa using hlatest

/-! ### Runs -/

variable {State Event : Type} {step : State → Event → Option State}

/-- What `look` gives at each moment of a run that ends in `s`. -/
def moments (step : State → Event → Option State) (look : State → α) (s₀ : State) (events : List Event)
    (s : State) : List α :=
  Machine.observed step (fun s _ => [look s]) s₀ events ++ [look s]

theorem moments_concat {look : State → α} {s₀ s t : State} {events : List Event} {e : Event}
    (hrun : Machine.run step s₀ events = some s) (hstep : step s e = some t) :
    moments step look s₀ (events ++ [e]) t = moments step look s₀ events s ++ [look t] := by
  rw [moments, Machine.observed_concat hrun hstep, moments]

/-- What is shown during a run was there in the same order. -/
theorem samples_moments {shown source : State → α} {transit : State → List α} {s₀ : State}
    (hstart : ∀ a ∈ shown s₀ :: transit s₀, a = source s₀)
    (hstep : ∀ s e t, step s e = some t →
      Passes (shown s) (transit s) (source s) (shown t) (transit t) (source t))
    {events : List Event} {s : State} (hrun : Machine.run step s₀ events = some s) :
    Samples (moments step source s₀ events s) (moments step shown s₀ events s) := by
  suffices hall : Samples (moments step source s₀ events s)
      (Machine.observed step (fun s _ => [shown s]) s₀ events ++
        shown s :: (transit s ++ [source s])) by
    exact hall.sublist (by simp [moments])
  apply Machine.run_induction (fun events s => Samples (moments step source s₀ events s)
    (Machine.observed step (fun s _ => [shown s]) s₀ events ++
      shown s :: (transit s ++ [source s]))) _ _ hrun
  · apply Samples.constant
    intro a ha
    simp only [Machine.observed, List.nil_append, ← List.cons_append, List.mem_append,
      List.mem_singleton] at ha
    exact ha.elim (hstart a) id
  · intro events m e t hm hsofar hlast
    have hpassed := (hstep m e t hlast).samples hsofar
    rw [moments_concat hm hlast, Machine.observed_concat hm hlast]
    exact hpassed

end Delay
