import Openaslc.AslcEngine

/-! The engine with the mock driver: from the inputs that the cycles of a
document latch to the images that they show to the outputs. -/

namespace Openaslc

namespace AslcEngine

variable {ι : Type}

/-! ### The steps of the engine as steps of the system -/

section

variable {δ μ : Type} [DecidableEq ι] [IIODriver δ μ]

def systemEvents (e : AslcEngine ι δ) : EngineEvent ι μ → List System.Event
  | .run other => [other]
  | .readInputs =>
    match e.readInputs with
    | some e' => [.rewrite fun _ => e'.system.mem]
    | none => []
  | _ => []

theorem step_system {e e' : AslcEngine ι δ} {ev : EngineEvent ι μ} (h : e.Shape)
    (hstep : e.step ev = some e') : e.system.run (e.systemEvents ev) = some e'.system := by
  have hcase := step_case hstep
  cases hcase with
  | readInputs i driver object mem hworker =>
    have hread : e.readInputs = _ := hstep
    have hidle := h.scan (by simp [hworker])
    simp only [systemEvents, hread, System.run, Machine.run_singleton, System.step, hidle]
  | copyCurrent system _ hsystem => exact Machine.run_singleton.mpr hsystem
  | rule system _ hsystem => exact Machine.run_singleton.mpr hsystem
  | endCycle system _ hsystem => exact Machine.run_singleton.mpr hsystem
  | outside other system _ _ hsystem => exact Machine.run_singleton.mpr hsystem
  | _ => rfl

theorem run_system {e₀ e : AslcEngine ι δ} {events : List (EngineEvent ι μ)} (h : e₀.Shape)
    (hrun : e₀.run events = some e) :
    e₀.system.run (Machine.observed step systemEvents e₀ events) = some e.system := by
  induction events generalizing e₀ with
  | nil =>
    obtain rfl : e₀ = e := by simpa using hrun
    rfl
  | cons ev events ih =>
    obtain ⟨m, hm, hrest⟩ := Machine.run_cons.mp hrun
    simp only [Machine.observed, hm]
    exact Machine.run_append.mpr ⟨m.system, step_system h hm, ih (h.step hm) hrest⟩

theorem mem_systemEvents {e : AslcEngine ι δ} {ev : EngineEvent ι μ} {other : System.Event}
    (h : other ∈ e.systemEvents ev) : ev = .run other ∨ ∃ f, other = .rewrite f := by
  cases ev with
  | run event =>
    obtain rfl := List.mem_singleton.mp h
    exact .inl rfl
  | readInputs =>
    rw [systemEvents] at h
    split at h
    · exact .inr ⟨_, List.mem_singleton.mp h⟩
    · cases h
  | _ => cases h

/-- An event of the system that no event of the engine is does not happen in it. -/
theorem ne_of_systemEvents {e₀ : AslcEngine ι δ} {events : List (EngineEvent ι μ)}
    {other : System.Event} (hno : ∀ ev ∈ events, ev ≠ .run other) (hrewrite : ∀ f, other ≠ .rewrite f) :
    ∀ event ∈ Machine.observed step systemEvents e₀ events, event ≠ other := by
  rintro event hevent rfl
  obtain ⟨ev, hev, m, hm⟩ := Machine.mem_observed hevent
  obtain heq | ⟨f, hf⟩ := mem_systemEvents hm
  · exact hno ev hev heq
  · exact hrewrite f hf

end

/-! ### What the image goes through -/

end AslcEngine

/-- Inputs latched into the image, the image that a callback finds, and the
image that a driver is shown for its outputs. -/
inductive ScanPoint
  | latched (inputs : Fin inputSize → UInt8)
  | found (mem : MemoryMap)
  | shown (mem : MemoryMap)

def ScanPoint.found? : ScanPoint → Option MemoryMap
  | .found mem => some mem
  | _ => none

open ConsoleDriver (latched)

section Reference

variable (rules : List RuleSpec) (period : Int64)

/-- What the last of the cycles that found these images leaves. -/
def left (found : List MemoryMap) : MemoryMap :=
  System.expected rules period found rules.length (found.length - 1)

/-- The image after these images, once `inputs` are latched. -/
def next (found : List MemoryMap) (inputs : Fin inputSize → UInt8) : MemoryMap :=
  latched (left rules period found) inputs

def loopTrace (found : List MemoryMap) : List (Fin inputSize → UInt8) → List ScanPoint
  | [] => []
  | inputs :: rest =>
    let found' := found ++ [next rules period found inputs]
    .latched inputs :: .found (next rules period found inputs) :: .shown (left rules period found') ::
      loopTrace found' rest

/-- The whole loop as the rules mean it: the first cycle finds `first`, and each
further one finds what the last one left, with the next inputs latched. -/
def controlTrace (first : MemoryMap) (inputs : List (Fin inputSize → UInt8)) : List ScanPoint :=
  .found first :: .shown (left rules period [first]) :: loopTrace rules period [first] inputs

/-- The images that the cycles of this loop find. -/
def loopImages (first : MemoryMap) (inputs : List (Fin inputSize → UInt8)) : List MemoryMap :=
  inputs.foldl (fun found i => found ++ [next rules period found i]) [first]

end Reference

variable {rules : List RuleSpec} {period : Int64}

theorem loopTrace_concat (found : List MemoryMap) (inputs : List (Fin inputSize → UInt8))
    (i : Fin inputSize → UInt8) :
    let images := inputs.foldl (fun found i => found ++ [next rules period found i]) found
    loopTrace rules period found (inputs ++ [i]) = loopTrace rules period found inputs ++
      [.latched i, .found (next rules period images i),
        .shown (left rules period (images ++ [next rules period images i]))] := by
  induction inputs generalizing found with
  | nil => rfl
  | cons j inputs ih => simp only [List.cons_append, loopTrace, ih, List.foldl_cons]

theorem loopImages_concat (first : MemoryMap) (inputs : List (Fin inputSize → UInt8))
    (i : Fin inputSize → UInt8) : loopImages rules period first (inputs ++ [i]) =
      loopImages rules period first inputs ++
        [next rules period (loopImages rules period first inputs) i] := by
  simp only [loopImages, List.foldl_append, List.foldl_cons, List.foldl_nil]

theorem controlTrace_concat (first : MemoryMap) (inputs : List (Fin inputSize → UInt8))
    (i : Fin inputSize → UInt8) : controlTrace rules period first (inputs ++ [i]) =
      controlTrace rules period first inputs ++ [.latched i,
        .found (next rules period (loopImages rules period first inputs) i),
        .shown (left rules period (loopImages rules period first (inputs ++ [i])))] := by
  rw [controlTrace, loopTrace_concat, loopImages_concat]
  rfl

theorem loopImages_ne_nil (first : MemoryMap) (inputs : List (Fin inputSize → UInt8)) :
    loopImages rules period first inputs ≠ [] := by
  induction inputs using List.reverseRecOn with
  | nil => simp [loopImages]
  | append_singleton inputs i _ => simp [loopImages_concat]

namespace AslcEngine

variable {ι : Type}

/-- What an event does to the image, as a `ScanPoint`. -/
def points (e : AslcEngine ι ConsoleDriver) : EngineEvent ι MockInput → List ScanPoint
  | .readInputs =>
    match e.worker with
    | .reading i => e.drivers[i]?.toList.map fun driver => .latched (e.objects driver).mockInputs
    | _ => []
  | .run .copyCurrent => [.found e.system.mem]
  | .writeOutputs => [.shown e.system.mem]
  | _ => []

/-- The worker is neither in the callback nor between it and the driver's call. -/
def Between (e : AslcEngine ι ConsoleDriver) : Prop :=
  e.worker ≠ .callingBack ∧ e.worker ≠ .writing 0 ∧ e.worker ≠ .reading 1

/-- Where the engine stands in the last of the cycles that found `images`, after
the points `seen`; `whole` are the points up to the end of that cycle. -/
inductive Stage (rules : List RuleSpec) (period : Int64) (e : AslcEngine ι ConsoleDriver)
    (seen whole : List ScanPoint) (images : List MemoryMap) : Prop
  | calling (hworker : e.worker = .callingBack)
      (hseen : seen ++ [.shown (left rules period images)] = whole)
  | ended (hworker : e.worker = .writing 0) (hmem : e.system.mem = left rules period images)
      (hseen : seen ++ [.shown (left rules period images)] = whole)
  | between (hworker : e.Between) (hmem : e.system.mem = left rules period images)
      (hseen : seen = whole)
  | read (inputs : Fin inputSize → UInt8) (hworker : e.worker = .reading 1)
      (hmem : e.system.mem = next rules period images inputs)
      (hseen : seen = whole ++ [.latched inputs])

def Follows (rules : List RuleSpec) (period : Int64) (e : AslcEngine ι ConsoleDriver)
    (seen : List ScanPoint) (found : List MemoryMap) : Prop :=
  (found = [] ∧ seen.filterMap ScanPoint.found? = []) ∨
    ∃ skipped first inputs, skipped.filterMap ScanPoint.found? = [] ∧
      found = loopImages rules period first inputs ∧
      Stage rules period e seen (skipped ++ controlTrace rules period first inputs) found

variable {e e' : AslcEngine ι ConsoleDriver} {seen : List ScanPoint} {found : List MemoryMap}

theorem Follows.between (h : Follows rules period e seen found) (hworker : e.Between)
    (hworker' : e'.Between) (hmem : e'.system.mem = e.system.mem) :
    Follows rules period e' seen found := by
  obtain h | ⟨skipped, first, inputs, hnone, hfound, hstage⟩ := h
  · exact .inl h
  · refine .inr ⟨skipped, first, inputs, hnone, hfound, ?_⟩
    cases hstage with
    | calling hw => exact absurd hw hworker.1
    | ended hw => exact absurd hw hworker.2.1
    | between _ hleft hseen => exact .between hworker' (hmem.trans hleft) hseen
    | read _ hw => exact absurd hw hworker.2.2

theorem Follows.keep (h : Follows rules period e seen found) (hworker : e'.worker = e.worker)
    (hmem : e.worker = .callingBack ∨ e'.system.mem = e.system.mem) :
    Follows rules period e' seen found := by
  obtain h | ⟨skipped, first, inputs, hnone, hfound, hstage⟩ := h
  · exact .inl h
  · refine .inr ⟨skipped, first, inputs, hnone, hfound, ?_⟩
    cases hstage with
    | calling hw hseen => exact .calling (hworker.trans hw) hseen
    | ended hw hleft hseen =>
      have hsame := hmem.resolve_left (by simp [hw])
      exact .ended (hworker.trans hw) (hsame.trans hleft) hseen
    | between hw hleft hseen =>
      have hsame := hmem.resolve_left hw.1
      refine .between ?_ (hsame.trans hleft) hseen
      rw [Between, hworker]
      exact hw
    | read next' hw hleft hseen =>
      have hsame := hmem.resolve_left (by simp [hw])
      exact .read next' (hworker.trans hw) (hsame.trans hleft) hseen

theorem Follows.latch (h : Follows rules period e seen found) {inputs : Fin inputSize → UInt8}
    (hworker : e.worker = .reading 0) (hworker' : e'.worker = .reading 1)
    (hmem : e'.system.mem = latched e.system.mem inputs) :
    Follows rules period e' (seen ++ [.latched inputs]) found := by
  obtain ⟨hfound, hnone⟩ | ⟨skipped, first, earlier, hnone, hfound, hstage⟩ := h
  · left
    rw [List.filterMap_append, hnone]
    exact ⟨hfound, rfl⟩
  · refine .inr ⟨skipped, first, earlier, hnone, hfound, ?_⟩
    cases hstage with
    | between _ hleft hseen =>
      refine .read inputs hworker' ?_ (hseen ▸ rfl)
      rw [hmem, hleft, next]
    | calling hw => simp [hworker] at hw
    | ended hw => simp [hworker] at hw
    | read _ hw => simp [hworker] at hw

theorem Follows.copy (h : Follows rules period e seen found) (hworker : e.worker = .reading 1)
    (hworker' : e'.worker = .callingBack) :
    Follows rules period e' (seen ++ [.found e.system.mem]) (found ++ [e.system.mem]) := by
  right
  obtain ⟨rfl, hnone⟩ | ⟨skipped, first, earlier, hnone, rfl, hstage⟩ := h
  · refine ⟨seen, e.system.mem, [], hnone, rfl, .calling hworker' ?_⟩
    simp [controlTrace, loopTrace]
  · cases hstage with
    | read inputs _ hmem hseen =>
      refine ⟨skipped, first, earlier ++ [inputs], hnone, ?_, .calling hworker' ?_⟩
      · rw [loopImages_concat, hmem]
      · rw [hseen, controlTrace_concat, loopImages_concat, hmem]
        simp
    | calling hw => simp [hworker] at hw
    | ended hw => simp [hworker] at hw
    | between hw => exact absurd hworker hw.2.2

theorem Follows.finish (h : Follows rules period e seen found) (hworker : e.worker = .callingBack)
    (hworker' : e'.worker = .writing 0)
    (hmem : found ≠ [] → e'.system.mem = left rules period found) :
    Follows rules period e' seen found := by
  obtain h | ⟨skipped, first, inputs, hnone, hfound, hstage⟩ := h
  · exact .inl h
  · refine .inr ⟨skipped, first, inputs, hnone, hfound, ?_⟩
    cases hstage with
    | calling _ hseen =>
      have hne : found ≠ [] := hfound ▸ loopImages_ne_nil first inputs
      exact .ended hworker' (hmem hne) hseen
    | ended hw => simp [hworker] at hw
    | between hw => exact absurd hworker hw.1
    | read _ hw => simp [hworker] at hw

theorem Follows.show (h : Follows rules period e seen found) (hworker : e.worker = .writing 0)
    (hworker' : e'.Between) (hmem : e'.system.mem = e.system.mem) :
    Follows rules period e' (seen ++ [.shown e.system.mem]) found := by
  obtain ⟨hfound, hnone⟩ | ⟨skipped, first, inputs, hnone, hfound, hstage⟩ := h
  · left
    rw [List.filterMap_append, hnone]
    exact ⟨hfound, rfl⟩
  · refine .inr ⟨skipped, first, inputs, hnone, hfound, ?_⟩
    cases hstage with
    | ended _ hleft hseen =>
      refine .between hworker' (hmem.trans hleft) ?_
      rw [hleft, hseen]
    | calling hw => simp [hworker] at hw
    | between hw => exact absurd hworker hw.2.1
    | read _ hw => simp [hworker] at hw

/-- The points seen so far begin the loop that the rules mean. -/
theorem Follows.begins (h : Follows rules period e seen found) :
    ∃ skipped trace first inputs, seen = skipped ++ trace ∧
      skipped.filterMap ScanPoint.found? = [] ∧ trace <+: controlTrace rules period first inputs := by
  obtain ⟨_, hnone⟩ | ⟨skipped, first, inputs, hnone, rfl, hstage⟩ := h
  · exact ⟨seen, [], {}, [], (List.append_nil seen).symm, hnone, List.nil_prefix⟩
  · have hunshown : ∀ {point : ScanPoint},
        seen ++ [point] = skipped ++ controlTrace rules period first inputs →
          seen = skipped ++ (controlTrace rules period first inputs).dropLast := by
      intro point hseen
      have hne : controlTrace rules period first inputs ≠ [] := by simp [controlTrace]
      rw [← List.dropLast_append_getLast hne, ← List.append_assoc] at hseen
      exact (List.append_inj' hseen rfl).1
    cases hstage with
    | calling _ hseen =>
      exact ⟨skipped, _, first, inputs, hunshown hseen, hnone, List.dropLast_prefix _⟩
    | ended _ _ hseen =>
      exact ⟨skipped, _, first, inputs, hunshown hseen, hnone, List.dropLast_prefix _⟩
    | between _ _ hseen => exact ⟨skipped, _, first, inputs, hseen, hnone, List.prefix_rfl⟩
    | read next' _ _ hseen =>
      refine ⟨skipped, _, first, inputs ++ [next'], hseen.trans (List.append_assoc _ _ _), hnone, ?_⟩
      rw [controlTrace_concat, List.prefix_append_right_inj, List.cons_prefix_cons]
      exact ⟨rfl, List.nil_prefix⟩

theorem reading_first {driver : ι} (hdrivers : e.drivers = [driver]) {i : Nat} {other : ι}
    (h : e.drivers[i]? = some other) : i = 0 ∧ other = driver := by
  rw [hdrivers] at h
  cases i with
  | zero => exact ⟨rfl, (Option.some.inj h).symm⟩
  | succ i => simp at h

/-- The loop over the program at address `a`. -/
structure Loop (rules : List RuleSpec) (period : Int64) (driver : ι) (a : Nat)
    (e : AslcEngine ι ConsoleDriver) (seen : List ScanPoint) : Prop where
  shape : e.Shape
  drivers : e.drivers = [driver]
  computes : System.Computes rules period a (seen.filterMap ScanPoint.found?) e.system
  follows : Follows rules period e seen (seen.filterMap ScanPoint.found?)

theorem computes_silent {a : Nat} {s s' : System} {found : List MemoryMap} (hpos : 1 ≤ period.toInt)
    (h : System.Computes rules period a found s) {other : System.Event}
    (hno : ∀ t, other.installed t = none) (hne : other ≠ .copyCurrent)
    (hs : s.step other = some s') (hbound : found.length * period.toInt.toNat < 2 ^ 64) :
    System.Computes rules period a found s' := by
  have hsame := System.append_copies s hne found
  have hstep := h.step hpos hno hs (by rwa [hsame])
  rwa [hsame] at hstep

/-- A cycle ends on the image that its rules mean. -/
theorem left_of_endCycle {a : Nat} {s s' : System} {found : List MemoryMap}
    (h : System.Computes rules period a found s) (hne : found ≠ [])
    (hs : s.step .endCycle = some s') : s'.mem = left rules period found := by
  have hend := System.endCycle_eq hs
  obtain ⟨_, hrest | ⟨n, i, hcycle⟩⟩ := h
  · have hidle := hrest.earlier hne
    simp [System.step, System.endCycle, hidle] at hs
  · obtain ⟨_, rfl⟩ := hcycle.finish hs
    obtain ⟨rfl, _⟩ := hend
    have hlast : found.length - 1 = n := by
      rw [hcycle.length]
      rfl
    rw [left, hlast]
    exact hcycle.mem

/-- A step that no driver and no rule takes part in. -/
theorem Loop.idle {driver : ι} {a : Nat} (h : Loop rules period driver a e seen)
    (hshape : e'.Shape) (hdrivers : e'.drivers = e.drivers) (hsystem : e'.system = e.system)
    (hworker : e'.worker = e.worker ∨ e.Between ∧ e'.Between) {points : List ScanPoint}
    (hpoints : points = []) : Loop rules period driver a e' (seen ++ points) := by
  subst hpoints
  rw [List.append_nil]
  refine ⟨hshape, hdrivers.trans h.drivers, hsystem ▸ h.computes, ?_⟩
  obtain hsame | ⟨hw, hw'⟩ := hworker
  · exact h.follows.keep hsame (.inr (hsystem ▸ rfl))
  · exact h.follows.between hw hw' (hsystem ▸ rfl)

/-! ### Over a run -/

variable [DecidableEq ι]

def scanned : AslcEngine ι ConsoleDriver → List (EngineEvent ι MockInput) → List ScanPoint :=
  Machine.observed step points

/-- The events that leave the program and the drivers as they are. -/
def Lasting (ev : EngineEvent ι MockInput) : Prop :=
  (∀ thread, ev ≠ .run (.swap thread)) ∧ (∀ program, ev ≠ .run (.reload program)) ∧
    ∀ driver, ev ≠ .addDriver driver

theorem drivers_step {δ μ : Type} [IIODriver δ μ] {e e' : AslcEngine ι δ} {ev : EngineEvent ι μ}
    (hadd : ∀ driver, ev ≠ .addDriver driver) (hstep : e.step ev = some e') :
    e'.drivers = e.drivers := by
  cases step_case hstep with
  | addDriver driver => exact absurd rfl (hadd driver)
  | _ => rfl

theorem Loop.step {driver : ι} {a : Nat} (h : Loop rules period driver a e seen)
    (hpos : 1 ≤ period.toInt) {ev : EngineEvent ι MockInput} (hev : Lasting ev)
    (hstep : e.step ev = some e')
    (hbound : ((seen ++ e.points ev).filterMap ScanPoint.found?).length * period.toInt.toNat < 2 ^ 64) :
    Loop rules period driver a e' (seen ++ e.points ev) := by
  have hshape' := h.shape.step hstep
  have hdrivers' := drivers_step hev.2.2 hstep
  have hcase := step_case hstep
  cases hcase with
  | addDriver other => exact absurd rfl (hev.2.2 other)
  | startAgain => exact h.idle hshape' rfl rfl (.inl rfl) rfl
  | start => exact h.idle hshape' rfl rfl (.inl rfl) rfl
  | initializeDriver => exact h.idle hshape' rfl rfl (.inl rfl) rfl
  | launch howner =>
    have habsent := h.shape.initializing _ howner
    exact h.idle hshape' rfl rfl (.inr (by simp [Between, habsent])) rfl
  | stopAgain => exact h.idle hshape' rfl rfl (.inl rfl) rfl
  | stop => exact h.idle hshape' rfl rfl (.inl rfl) rfl
  | join _ hworker => exact h.idle hshape' rfl rfl (.inr (by simp [Between, hworker])) rfl
  | testOn hworker => exact h.idle hshape' rfl rfl (.inr (by simp [Between, hworker])) rfl
  | testOff hworker => exact h.idle hshape' rfl rfl (.inr (by simp [Between, hworker])) rfl
  | count hworker => exact h.idle hshape' rfl rfl (.inr (by simp [Between, hworker, h.drivers])) rfl
  | method => exact h.idle hshape' rfl rfl (.inl rfl) rfl
  | readInputs i other object mem hworker hdriver hread =>
    obtain ⟨rfl, rfl⟩ := reading_first h.drivers hdriver
    obtain ⟨_, hmem⟩ := ConsoleDriver.readInputs_inv hread
    have hpoints : e.points .readInputs = [.latched (e.objects other).mockInputs] := by
      simp [points, hworker, h.drivers]
    have hsame : (seen ++ e.points .readInputs).filterMap ScanPoint.found? =
        seen.filterMap ScanPoint.found? := by
      simp [hpoints, ScanPoint.found?]
    have hrewrite : e.system.step (.rewrite fun _ => mem) = some { e.system with mem } := by
      simp only [System.step, h.shape.scan (by simp [hworker])]
    refine ⟨hshape', hdrivers'.trans h.drivers, ?_, ?_⟩
    · rw [hsame] at hbound ⊢
      exact computes_silent hpos h.computes (fun _ => rfl) (by simp) hrewrite hbound
    · rw [hsame, hpoints]
      exact h.follows.latch hworker rfl hmem
  | copyCurrent system hworker hsystem =>
    have hreading : e.worker = .reading 1 := by simpa [h.drivers] using hworker
    have hfound : (seen ++ e.points (.run .copyCurrent)).filterMap ScanPoint.found? =
        seen.filterMap ScanPoint.found? ++ [e.system.mem] := by
      simp [points, ScanPoint.found?]
    refine ⟨hshape', hdrivers'.trans h.drivers, ?_, ?_⟩
    · rw [hfound] at hbound ⊢
      exact h.computes.step hpos (fun _ => rfl) hsystem hbound
    · rw [hfound]
      exact h.follows.copy hreading rfl
  | rule system hworker hsystem =>
    have hpoints : e.points (.run .rule) = [] := rfl
    rw [hpoints, List.append_nil] at hbound ⊢
    refine ⟨hshape', hdrivers'.trans h.drivers, ?_, h.follows.keep rfl (.inl hworker)⟩
    exact computes_silent hpos h.computes (fun _ => rfl) (by simp) hsystem hbound
  | endCycle system hworker hsystem =>
    have hpoints : e.points (.run .endCycle) = [] := rfl
    rw [hpoints, List.append_nil] at hbound ⊢
    refine ⟨hshape', hdrivers'.trans h.drivers, ?_, h.follows.finish hworker rfl fun hne => ?_⟩
    · exact computes_silent hpos h.computes (fun _ => rfl) (by simp) hsystem hbound
    · exact left_of_endCycle h.computes hne hsystem
  | outside other system hno hscan hsystem =>
    have hpoints : e.points (.run other) = [] := by
      cases other with
      | copyCurrent => exact absurd rfl hscan.1
      | _ => rfl
    have hinstalled : ∀ t, other.installed t = none := by
      cases other with
      | swap thread => exact absurd rfl (hev.1 thread)
      | reload program => exact absurd rfl (hev.2.1 program)
      | _ => exact fun _ => rfl
    rw [hpoints, List.append_nil] at hbound ⊢
    refine ⟨hshape', hdrivers'.trans h.drivers, ?_, h.follows.keep rfl (.inr ?_)⟩
    · exact computes_silent hpos h.computes hinstalled hscan.1 hsystem hbound
    · exact (scan_outside hscan hno hsystem).mem
  | writeOutputs i other object hworker hdriver hwrite =>
    obtain ⟨rfl, rfl⟩ := reading_first h.drivers hdriver
    have hsame : (seen ++ e.points .writeOutputs).filterMap ScanPoint.found? =
        seen.filterMap ScanPoint.found? := by
      simp [points, ScanPoint.found?]
    refine ⟨hshape', hdrivers'.trans h.drivers, ?_, ?_⟩
    · rw [hsame]
      exact h.computes
    · rw [hsame]
      exact h.follows.show hworker (by simp [Between]) rfl

theorem Loop.run {driver : ι} {a : Nat} {e₁ : AslcEngine ι ConsoleDriver}
    (h : Loop rules period driver a e₁ []) (hpos : 1 ≤ period.toInt)
    {events : List (EngineEvent ι MockInput)} (hev : ∀ ev ∈ events, Lasting ev)
    (hrun : e₁.run events = some e)
    (hbound : ((scanned e₁ events).filterMap ScanPoint.found?).length * period.toInt.toNat < 2 ^ 64) :
    Loop rules period driver a e (scanned e₁ events) := by
  induction events using List.reverseRecOn generalizing e with
  | nil =>
    obtain rfl : e₁ = e := by simpa using hrun
    exact h
  | append_singleton events ev ih =>
    obtain ⟨m, hm, hlast⟩ := Machine.run_concat.mp hrun
    have hseen : scanned e₁ (events ++ [ev]) = scanned e₁ events ++ m.points ev :=
      Machine.observed_concat hm hlast
    rw [hseen] at hbound ⊢
    have hless : ((scanned e₁ events).filterMap ScanPoint.found?).length * period.toInt.toNat ≤
        ((scanned e₁ events ++ m.points ev).filterMap ScanPoint.found?).length *
          period.toInt.toNat := by
      apply Nat.mul_le_mul_right
      rw [List.filterMap_append, List.length_append]
      omega
    have hfirst := ih (fun ev' hev' => hev ev' (List.mem_append_left _ hev')) hm (by omega)
    exact hfirst.step hpos (hev ev (by simp)) hlast hbound

/-- From the swap that brought a document's program in to the next swap, in any
interleaving and over any number of stops and starts: the inputs latched, the
images found and the images shown to the outputs are, from the first cycle on,
those of the loop that the document means. -/
theorem control_loop {e₀ : AslcEngine ι ConsoleDriver} {driver : ι} (h₀ : Constructed e₀)
    (hquiet : e₀.system.Quiet) (hpos : 1 ≤ e₀.system.runtime.period.toInt)
    {before mid rest : List (EngineEvent ι MockInput)} {thread : Nat} {doc : Json}
    (hrun : e₀.run (before ++ .run (.parse thread doc) :: (mid ++ .run (.swap thread) :: rest)) = some e)
    (hreload : ∀ e', e₀.run before = some e' →
      .run (.reload (some e'.system.runtime.objects.length)) ∉ mid)
    (hmid : ∀ ev ∈ mid, ev ≠ .run (.swap thread) ∧ ∀ doc', ev ≠ .run (.parse thread doc'))
    (hrest : ∀ ev ∈ rest, Lasting ev) (hdrivers : e.drivers = [driver]) :
    ∃ e₁ rules, e₀.run (before ++ .run (.parse thread doc) :: (mid ++ [.run (.swap thread)])) = some e₁ ∧
      DocumentDenotes doc rules ∧
      (((scanned e₁ rest).filterMap ScanPoint.found?).length *
          e₀.system.runtime.period.toInt.toNat < 2 ^ 64 →
        ∃ skipped trace first inputs, scanned e₁ rest = skipped ++ trace ∧
          skipped.filterMap ScanPoint.found? = [] ∧
          trace <+: controlTrace rules e₀.system.runtime.period first inputs) := by
  obtain ⟨eb, hbefore, hafter⟩ := Machine.run_append.mp hrun
  have hsplit : EngineEvent.run (ι := ι) (μ := MockInput) (.parse thread doc) ::
      (mid ++ .run (.swap thread) :: rest) =
      .run (.parse thread doc) :: (mid ++ [.run (.swap thread)]) ++ rest := by simp
  rw [hsplit] at hafter
  obtain ⟨e₁, hfirst, hlater⟩ := Machine.run_append.mp hafter
  have hshapeb := (h₀.shape hquiet.scan).run hbefore
  have hbeforeSystem := run_system (h₀.shape hquiet.scan) hbefore
  have hperiod := System.period_run hbeforeSystem
  have hknown : eb.system.Known := System.known_run hquiet.known hbeforeSystem
  obtain ⟨m, hm, hswapped⟩ := Machine.run_cons.mp hfirst
  obtain ⟨em, hem, hswap⟩ := Machine.run_concat.mp hswapped
  have hevents : Machine.observed step systemEvents eb
      (.run (.parse thread doc) :: (mid ++ [.run (.swap thread)])) = .parse thread doc ::
        (Machine.observed step systemEvents m mid ++ [.swap thread]) := by
    have hconcat : Machine.observed step systemEvents m (mid ++ [.run (.swap thread)]) =
        Machine.observed step systemEvents m mid ++ [.swap thread] :=
      Machine.observed_concat hem hswap
    rw [Machine.observed, hm]
    exact congrArg (List.cons (System.Event.parse thread doc)) hconcat
  have hsystem := run_system hshapeb hfirst
  rw [hevents] at hsystem
  obtain ⟨rules, a, hd, hfresh⟩ := System.swapped_fresh hknown
    (fun hmem => ne_of_systemEvents (fun ev hev (heq : ev = .run (.reload _)) =>
      hreload eb hbefore (heq ▸ hev)) (by simp) _ hmem rfl)
    (fun event hevent doc' => ne_of_systemEvents (fun ev hev => (hmid ev hev).2 doc') (by simp)
      event hevent)
    (fun hmem => ne_of_systemEvents (fun ev hev => (hmid ev hev).1) (by simp) _ hmem rfl) hsystem
  rw [hperiod] at hfresh
  refine ⟨e₁, rules, Machine.run_append.mpr ⟨eb, hbefore, hfirst⟩, hd, fun hbound => ?_⟩
  have hsame : e.drivers = e₁.drivers := by
    apply Machine.run_invariant (fun t => t.drivers = e₁.drivers) _ rfl hrest hlater
    intro t ev t' ht hev hst
    exact (drivers_step hev.2.2 hst).trans ht
  have hloop : Loop rules e₀.system.runtime.period driver a e₁ [] :=
    ⟨hshapeb.run hfirst, hsame.symm.trans hdrivers, hfresh, .inl ⟨rfl, rfl⟩⟩
  exact (hloop.run hpos hrest hlater hbound).follows.begins

def starting : List (EngineEvent Unit MockInput) :=
  [.addDriver (), .start, .initializeDriver, .launch]

/-- The engine once the program of `sharedOutputRules` is swapped in. -/
def controlled : AslcEngine Unit ConsoleDriver where
  objects := Function.update wired.objects () (ConsoleDriver.initializeDriver (wired.objects ())).2
  system := .sharedSwapped
  drivers := [()]
  isRunning := true
  worker := .testing
  calls := [.initializeDriver ()]

theorem run_controlled : wired.run (starting ++ .run (.parse 0 (canonicalDocument sharedOutputRules)) ::
    ([] ++ [.run (.swap 0)])) = some controlled := by
  obtain ⟨s, hparse, hswap⟩ := Machine.run_cons.mp System.run_sharedSwapped
  refine Machine.run_append.mpr ⟨{ controlled with system := .vacant }, rfl,
    Machine.run_cons.mpr ⟨{ controlled with system := s }, ?_, Machine.run_singleton.mpr ?_⟩⟩
  · simp only [step, runStep, hparse, Option.map_some]
  · have hlast : s.step (.swap 0) = some System.sharedSwapped := Machine.run_singleton.mp hswap
    simp only [step, runStep, hlast, Option.map_some]
    rfl

/-- One whole cycle, an input bit, and the first rule of the next cycle. -/
def inputBetween : List (EngineEvent Unit MockInput) :=
  [.test, .readInputs, .run .copyCurrent, .run .rule, .run .rule, .run .endCycle, .writeOutputs,
    .count, .method () (.setBit 0 1 true), .test, .readInputs, .run .copyCurrent, .run .rule]

theorem isSome_inputBetween : (controlled.run inputBetween).isSome = true := by decide +kernel

theorem length_inputBetween :
    ((scanned controlled inputBetween).filterMap ScanPoint.found?).length = 2 := by decide +kernel

theorem control_loop_inputBetween : ∃ rules,
    DocumentDenotes (canonicalDocument sharedOutputRules) rules ∧
    ∃ skipped trace first inputs, scanned controlled inputBetween = skipped ++ trace ∧
      skipped.filterMap ScanPoint.found? = [] ∧ trace <+: controlTrace rules 100 first inputs := by
  obtain ⟨e, he⟩ := Option.isSome_iff_exists.mp isSome_inputBetween
  have hsplit : starting ++ .run (.parse 0 (canonicalDocument sharedOutputRules)) ::
      ([] ++ .run (.swap 0) :: inputBetween) =
        starting ++ .run (.parse 0 (canonicalDocument sharedOutputRules)) ::
          ([] ++ [.run (.swap 0)]) ++ inputBetween := by simp
  have hrun : wired.run (starting ++ .run (.parse 0 (canonicalDocument sharedOutputRules)) ::
      ([] ++ .run (.swap 0) :: inputBetween)) = some e := by
    rw [hsplit]
    exact Machine.run_append.mpr ⟨_, run_controlled, he⟩
  have hrest : ∀ ev ∈ inputBetween, Lasting ev := by simp [inputBetween, Lasting]
  have hdrivers : e.drivers = [()] := by
    apply Machine.run_invariant (fun t => t.drivers = [()]) _ rfl hrest he
    intro t ev t' ht hev hst
    exact (drivers_step hev.2.2 hst).trans ht
  obtain ⟨e₁, rules, he₁, hd, hall⟩ := control_loop ⟨rfl, rfl, rfl, rfl, rfl, rfl⟩
    ⟨rfl, fun _ => rfl⟩ (by decide) hrun (by simp [starting]) (by simp) hrest hdrivers
  obtain rfl : controlled = e₁ := Option.some.inj (run_controlled.symm.trans he₁)
  rw [length_inputBetween] at hall
  exact ⟨rules, hd, hall (by decide)⟩

end AslcEngine

end Openaslc
