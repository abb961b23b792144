import Openaslc.LogicGrammar
import Openaslc.LogicRuntime
import Openaslc.Machine
import Openaslc.ScanSafety

/-! Program objects that are swapped out and in again. The counts of an object
stay with it, so what a swap finds in them is what its last cycle left there. -/

namespace Openaslc

namespace LogicNode

mutual

/-- The inputs of all timers in a tree, with the timers' counts. -/
def timers : LogicNode → List (LogicNode × UInt64)
  | .signalRefNode _ => []
  | .andNode inputs => timersList inputs
  | .orNode inputs => timersList inputs
  | .notNode input => timers input
  | .tonTimerNode input _ _ elapsedCycles => (input, elapsedCycles) :: timers input

def timersList : List LogicNode → List (LogicNode × UInt64)
  | [] => []
  | child :: rest => timers child ++ timersList rest

end

mutual

def reset : LogicNode → LogicNode
  | .signalRefNode ref => .signalRefNode ref
  | .andNode inputs => .andNode (resetList inputs)
  | .orNode inputs => .orNode (resetList inputs)
  | .notNode input => .notNode (reset input)
  | .tonTimerNode input presetMs periodMs _ => .tonTimerNode (reset input) presetMs periodMs 0

def resetList : List LogicNode → List LogicNode
  | [] => []
  | child :: rest => reset child :: resetList rest

end

theorem timersList_eq (inputs : List LogicNode) : timersList inputs = inputs.flatMap timers := by
  induction inputs with
  | nil => simp [timersList]
  | cons c cs ih => simp [timersList, ih]

theorem resetList_eq (inputs : List LogicNode) : resetList inputs = inputs.map reset := by
  induction inputs with
  | nil => simp [resetList]
  | cons c cs ih => simp [resetList, ih]

theorem elapsed_tick (mem : MemoryMap) (n : LogicNode) :
    (n.tick mem).elapsed = n.timers.map fun t => if t.1.value mem then t.2 + 1 else 0 := by
  induction n using LogicNode.induction with
  | signalRefNode ref => simp [tick, elapsed, timers]
  | andNode inputs ih =>
    simp only [tick, elapsed, timers, ticks_eq_map, elapsedList_eq, timersList_eq, List.flatMap_map,
      List.map_flatMap]
    exact List.flatMap_congr ih
  | orNode inputs ih =>
    simp only [tick, elapsed, timers, ticks_eq_map, elapsedList_eq, timersList_eq, List.flatMap_map,
      List.map_flatMap]
    exact List.flatMap_congr ih
  | notNode input ih => simp [tick, elapsed, timers, ih]
  | tonTimerNode input presetMs periodMs elapsedCycles ih => simp [tick, elapsed, timers, ih]

theorem reset_tick (mem : MemoryMap) (n : LogicNode) : (n.tick mem).reset = n.reset := by
  induction n using LogicNode.induction with
  | signalRefNode ref => simp [tick]
  | andNode inputs ih =>
    simp only [tick, reset, ticks_eq_map, resetList_eq, List.map_map]
    exact congrArg andNode (List.map_congr_left ih)
  | orNode inputs ih =>
    simp only [tick, reset, ticks_eq_map, resetList_eq, List.map_map]
    exact congrArg orNode (List.map_congr_left ih)
  | notNode input ih => simp [tick, reset, ih]
  | tonTimerNode input presetMs periodMs elapsedCycles ih => simp [tick, reset, ih]

theorem reset_of_zero {n : LogicNode} (h : ∀ c ∈ n.elapsed, c = 0) : n.reset = n := by
  induction n using LogicNode.induction with
  | signalRefNode ref => simp [reset]
  | andNode inputs ih =>
    simp only [elapsed, elapsedList_eq, List.mem_flatMap] at h
    have hall : inputs.map reset = inputs.map id :=
      List.map_congr_left fun c hc => ih c hc fun k hk => h k ⟨c, hc, hk⟩
    simp [reset, resetList_eq, hall]
  | orNode inputs ih =>
    simp only [elapsed, elapsedList_eq, List.mem_flatMap] at h
    have hall : inputs.map reset = inputs.map id :=
      List.map_congr_left fun c hc => ih c hc fun k hk => h k ⟨c, hc, hk⟩
    simp [reset, resetList_eq, hall]
  | notNode input ih => simp [reset, ih h]
  | tonTimerNode input presetMs periodMs elapsedCycles ih =>
    simp only [elapsed, List.mem_cons, forall_eq_or_imp] at h
    simp [reset, ih h.2, h.1]

end LogicNode

/-- At a call on `mem`, every timer's input is off. A count of 2^64 - 1 may
stand, since one more cycle makes it 0. -/
def RulesOff : List Rule → MemoryMap → Prop
  | [], _ => True
  | r :: rest, mem => (∀ t ∈ r.condition.timers, t.1.value mem = true → t.2 + 1 = 0) ∧
    RulesOff rest (r.written mem)

namespace LogicProgram

def TimersOff (p : LogicProgram) (mem : MemoryMap) : Prop := RulesOff p.rules mem

def reset (p : LogicProgram) : LogicProgram :=
  ⟨p.rules.map fun r => { r with condition := r.condition.reset }⟩

theorem timersZero_ticked (p : LogicProgram) (mem : MemoryMap) :
    (p.ticked mem).TimersZero ↔ p.TimersOff mem := by
  obtain ⟨rules⟩ := p
  simp only [TimersZero, ticked, TimersOff]
  induction rules generalizing mem with
  | nil => simp [tickRules, RulesOff]
  | cons r rest ih =>
    simp only [tickRules, List.mem_cons, forall_eq_or_imp, ih, RulesOff, Rule.tick,
      LogicNode.elapsed_tick, List.mem_map]
    apply and_congr_left
    intro _
    constructor
    · intro h t ht hon
      simpa [hon] using h _ ⟨t, ht, rfl⟩
    · rintro h _ ⟨t, ht, rfl⟩
      by_cases hon : t.1.value mem = true
      · simpa [hon] using h t ht hon
      · simp [hon]

theorem reset_ticked (p : LogicProgram) (mem : MemoryMap) : (p.ticked mem).reset = p.reset := by
  obtain ⟨rules⟩ := p
  simp only [reset, ticked, mk.injEq]
  induction rules generalizing mem with
  | nil => simp [tickRules]
  | cons r rest ih => simp [tickRules, ih, Rule.tick, LogicNode.reset_tick]

theorem reset_of_timersZero {p : LogicProgram} (h : p.TimersZero) : p.reset = p := by
  obtain ⟨rules⟩ := p
  have hall : rules.map (fun r => { r with condition := r.condition.reset }) = rules.map id := by
    apply List.map_congr_left
    intro r hr
    simp [LogicNode.reset_of_zero (h r hr)]
  simp [reset, hall]

end LogicProgram

/-! ### Runs of a runtime and its objects -/

/-- What each object was parsed from, and on what it last ran: the object as the
cycle found it, and the image. -/
structure RuntimeHistory where
  runtime : LogicRuntime
  sources : List (Json × Int64)
  lastCycle : Nat → Option (LogicProgram × MemoryMap)

/-- A program goes through `parse` when `from_json` or `from_file` builds it
outside the runtime. -/
inductive RuntimeCall
  | executeCycle (mem : MemoryMap)
  | parse (doc : Json) (period : Int64)
  | reload (newProgram : Option Nat)
  | reloadFromJson (doc : Json)

namespace RuntimeHistory

def start (period : Int64) : RuntimeHistory := ⟨.empty period, [], fun _ => none⟩

def step (s : RuntimeHistory) : RuntimeCall → Option RuntimeHistory
  | .executeCycle mem =>
    match s.runtime.executeCycle mem with
    | .error _ => none
    | .ok (runtime, _) => some { s with
        runtime
        lastCycle := fun a =>
          if s.runtime.current = some a then some (s.runtime.object a, mem) else s.lastCycle a }
  | .parse doc period =>
    match LogicProgram.fromJson doc period with
    | .error _ => some s
    | .ok program => some { s with
        runtime := s.runtime.allocate program
        sources := s.sources ++ [(doc, period)] }
  | .reload newProgram =>
    if h : ∀ a ∈ newProgram, a < s.runtime.objects.length then
      some { s with runtime := s.runtime.reload newProgram h }
    else none
  | .reloadFromJson doc =>
    match s.runtime.reloadFromJson doc with
    | .error _ => some s
    | .ok (runtime, _) => some { s with
        runtime
        sources := s.sources ++ [(doc, s.runtime.period)] }

/-- The calls that swap a program in; a document that does not parse does not. -/
def Swaps (s : RuntimeHistory) : RuntimeCall → Prop
  | .reload _ => True
  | .reloadFromJson doc => ∃ program, LogicProgram.fromJson doc s.runtime.period = .ok program
  | _ => False

def StartsFresh (s : RuntimeHistory) (a : Nat) : Prop :=
  (s.runtime.object a).TimersZero ∧ ∃ doc period fresh, s.sources[a]? = some (doc, period) ∧
    LogicProgram.fromJson doc period = .ok fresh ∧
    ∀ env mem n, (s.runtime.object a).scan env mem n = fresh.scan env mem n

/-- The object has not run, or no timer was on in its last cycle. -/
def Rested (s : RuntimeHistory) (a : Nat) : Prop :=
  ∀ program mem, s.lastCycle a = some (program, mem) → program.TimersOff mem

def SwapsFresh (s : RuntimeHistory) (call : RuntimeCall) (s' : RuntimeHistory) : Prop :=
  s.Swaps call → ∀ a ∈ s'.runtime.current, s'.StartsFresh a

def ReloadsRested (s : RuntimeHistory) (call : RuntimeCall) (_ : RuntimeHistory) : Prop :=
  ∀ a, call = .reload (some a) → s.Rested a

inductive Ran (fresh : LogicProgram) : Option (LogicProgram × MemoryMap) → LogicProgram → Prop
  | never : Ran fresh none fresh
  | last {program : LogicProgram} {mem : MemoryMap} (valid : program.Valid)
      (reset : program.reset = fresh) : Ran fresh (some (program, mem)) (program.ticked mem)

theorem Ran.valid {fresh program : LogicProgram} {last : Option (LogicProgram × MemoryMap)}
    (h : Ran fresh last program) (hfresh : fresh.Valid) : program.Valid := by
  cases h with
  | never => exact hfresh
  | last hvalid => exact hvalid.ticked _

theorem Ran.reset {fresh program : LogicProgram} {last : Option (LogicProgram × MemoryMap)}
    (h : Ran fresh last program) (hfresh : fresh.TimersZero) : program.reset = fresh := by
  cases h with
  | never => exact LogicProgram.reset_of_timersZero hfresh
  | last _ hreset => rw [LogicProgram.reset_ticked, hreset]

theorem Ran.timersZero_iff {fresh program : LogicProgram} {last : Option (LogicProgram × MemoryMap)}
    (h : Ran fresh last program) (hfresh : fresh.TimersZero) :
    program.TimersZero ↔ ∀ p mem, last = some (p, mem) → p.TimersOff mem := by
  cases h with
  | never => simpa using hfresh
  | last => simp [LogicProgram.timersZero_ticked]

theorem timersZero_of_fromJson {doc : Json} {period : Int64} {fresh : LogicProgram}
    (h : LogicProgram.fromJson doc period = .ok fresh) : fresh.TimersZero := by
  obtain ⟨rules, _, rfl⟩ := specs_of_fromJson h
  exact LogicProgram.timersZero_ofSpecs rules period

structure Tracked (s : RuntimeHistory) : Prop where
  length : s.sources.length = s.runtime.objects.length
  unrun : ∀ a, s.runtime.objects.length ≤ a → s.lastCycle a = none
  ran : ∀ a < s.runtime.objects.length, ∃ doc period fresh, s.sources[a]? = some (doc, period) ∧
    LogicProgram.fromJson doc period = .ok fresh ∧ Ran fresh (s.lastCycle a) (s.runtime.object a)

theorem tracked_start (period : Int64) : Tracked (start period) where
  length := by simp [start, LogicRuntime.empty]
  unrun _ _ := by simp [start]
  ran a ha := by simp [start, LogicRuntime.empty] at ha

theorem Tracked.allocate {s : RuntimeHistory} (h : s.Tracked) {doc : Json} {period : Int64}
    {fresh : LogicProgram} (hparse : LogicProgram.fromJson doc period = .ok fresh) :
    Tracked { s with
      runtime := s.runtime.allocate fresh
      sources := s.sources ++ [(doc, period)] } := by
  refine ⟨by simp [h.length], fun a ha => ?_, fun a ha => ?_⟩
  · simp only [LogicRuntime.length_allocate] at ha
    exact h.unrun a (by omega)
  · simp only [LogicRuntime.length_allocate] at ha
    by_cases hnew : a = s.runtime.objects.length
    · subst hnew
      refine ⟨doc, period, fresh, by simp [← h.length], hparse, ?_⟩
      rw [h.unrun _ (Nat.le_refl _), LogicRuntime.object_allocate_new]
      exact .never
    · have hlt : a < s.runtime.objects.length := by omega
      obtain ⟨doc', period', fresh', hsource, hparse', hran⟩ := h.ran a hlt
      refine ⟨doc', period', fresh', ?_, hparse', ?_⟩
      · rw [List.getElem?_append_left (by rwa [h.length])]
        exact hsource
      · rwa [LogicRuntime.object_allocate_of_lt _ hlt]

theorem Tracked.reload {s : RuntimeHistory} (h : s.Tracked) (newProgram : Option Nat)
    (hlive : ∀ a ∈ newProgram, a < s.runtime.objects.length) :
    Tracked { s with runtime := s.runtime.reload newProgram hlive } :=
  ⟨h.length, h.unrun, h.ran⟩

theorem Tracked.executeCycle {s : RuntimeHistory} (h : s.Tracked) {mem mem' : MemoryMap}
    {runtime : LogicRuntime} (hcycle : s.runtime.executeCycle mem = .ok (runtime, mem')) :
    Tracked { s with
      runtime
      lastCycle := fun a =>
        if s.runtime.current = some a then some (s.runtime.object a, mem) else s.lastCycle a } := by
  cases hcur : s.runtime.current with
  | none =>
    rw [LogicRuntime.executeCycle, hcur] at hcycle
    cases hcycle
    simpa using h
  | some b =>
    have hb := s.runtime.live b hcur
    obtain ⟨doc, period, fresh, hsource, hparse, hran⟩ := h.ran b hb
    have hvalid := hran.valid (valid_of_fromJson hparse)
    simp only [LogicRuntime.executeCycle, hcur, LogicProgram.execute_eq hvalid, bind, Except.bind,
      pure, Except.pure, Except.ok.injEq, Prod.mk.injEq] at hcycle
    obtain ⟨rfl, _⟩ := hcycle
    refine ⟨by simp [h.length], fun a ha => ?_, fun a ha => ?_⟩
    · simp only [LogicRuntime.length_store] at ha
      have hne : b ≠ a := by omega
      simp [hne, h.unrun a ha]
    · simp only [LogicRuntime.length_store] at ha
      by_cases hab : b = a
      · subst hab
        refine ⟨doc, period, fresh, hsource, hparse, ?_⟩
        simp only [if_true, LogicRuntime.object_store_self _ hb]
        exact .last hvalid (hran.reset (timersZero_of_fromJson hparse))
      · obtain ⟨doc', period', fresh', hsource', hparse', hran'⟩ := h.ran a ha
        refine ⟨doc', period', fresh', hsource', hparse', ?_⟩
        simpa [hab, LogicRuntime.object_store_ne _ (Ne.symm hab)] using hran'

theorem Tracked.startsFresh_iff {s : RuntimeHistory} (h : s.Tracked) {a : Nat}
    (ha : a < s.runtime.objects.length) : s.StartsFresh a ↔ s.Rested a := by
  obtain ⟨doc, period, fresh, hsource, hparse, hran⟩ := h.ran a ha
  have hzero := timersZero_of_fromJson hparse
  rw [Rested, ← hran.timersZero_iff hzero]
  constructor
  · intro hfresh
    exact hfresh.1
  · intro hobject
    have hsame : s.runtime.object a = fresh := by
      rw [← hran.reset hzero, LogicProgram.reset_of_timersZero hobject]
    exact ⟨hobject, doc, period, fresh, hsource, hparse, fun env mem n => by rw [hsame]⟩

theorem step_reloadFromJson {s : RuntimeHistory} {doc : Json} {fresh : LogicProgram}
    (hparse : LogicProgram.fromJson doc s.runtime.period = .ok fresh) :
    s.step (.reloadFromJson doc) = some { s with
      runtime := (s.runtime.allocate fresh).reload (some s.runtime.objects.length)
        (s.runtime.lt_length_allocate fresh)
      sources := s.sources ++ [(doc, s.runtime.period)] } := by
  simp only [RuntimeHistory.step, LogicRuntime.reloadFromJson, hparse]
  rfl

theorem Tracked.step_reload {s t : RuntimeHistory} {newProgram : Option Nat} (h : s.Tracked)
    (hstep : s.step (.reload newProgram) = some t) :
    t.Tracked ∧ (s.SwapsFresh (.reload newProgram) t ↔ s.ReloadsRested (.reload newProgram) t) := by
  by_cases hlive : ∀ a ∈ newProgram, a < s.runtime.objects.length
  · simp only [RuntimeHistory.step, dif_pos hlive, Option.some.injEq] at hstep
    subst hstep
    refine ⟨h.reload newProgram hlive, ?_⟩
    simp only [SwapsFresh, Swaps, ReloadsRested, LogicRuntime.reload, true_implies]
    apply forall_congr'
    intro a
    simp only [RuntimeCall.reload.injEq, Option.mem_def]
    apply imp_congr_right
    intro ha
    exact (h.reload newProgram hlive).startsFresh_iff (hlive a ha)
  · rw [RuntimeHistory.step, dif_neg hlive] at hstep
    cases hstep

/-- A document's own object has not run, so its swap is always fresh. -/
theorem Tracked.step_reloadFromJson {s t : RuntimeHistory} {doc : Json} (h : s.Tracked)
    (hstep : s.step (.reloadFromJson doc) = some t) :
    t.Tracked ∧ s.SwapsFresh (.reloadFromJson doc) t := by
  cases hparse : LogicProgram.fromJson doc s.runtime.period with
  | error e =>
    have hreload : s.runtime.reloadFromJson doc = .error e := by
      rw [LogicRuntime.reloadFromJson, hparse]
      rfl
    simp only [RuntimeHistory.step, hreload, Option.some.injEq] at hstep
    subst hstep
    refine ⟨h, ?_⟩
    rintro ⟨program, hswaps⟩
    rw [hparse] at hswaps
    cases hswaps
  | ok fresh =>
    obtain rfl := Option.some.inj ((RuntimeHistory.step_reloadFromJson hparse).symm.trans hstep)
    have hnew := h.allocate hparse
    have hswapped := hnew.reload (some s.runtime.objects.length) (s.runtime.lt_length_allocate fresh)
    refine ⟨hswapped, ?_⟩
    intro _ a ha
    obtain rfl : s.runtime.objects.length = a := by simpa [LogicRuntime.reload] using ha
    apply (hswapped.startsFresh_iff (s.runtime.lt_length_allocate fresh _ rfl)).mpr
    intro program mem hlast
    rw [h.unrun _ (Nat.le_refl _)] at hlast
    cases hlast

theorem Tracked.step {s t : RuntimeHistory} {call : RuntimeCall} (h : s.Tracked)
    (hstep : s.step call = some t) :
    t.Tracked ∧ (s.SwapsFresh call t ↔ s.ReloadsRested call t) := by
  cases call with
  | executeCycle mem =>
    refine ⟨?_, by simp [SwapsFresh, ReloadsRested, Swaps]⟩
    cases hcycle : s.runtime.executeCycle mem with
    | error e => simp [RuntimeHistory.step, hcycle] at hstep
    | ok ran =>
      obtain ⟨runtime, mem'⟩ := ran
      simp only [RuntimeHistory.step, hcycle, Option.some.injEq] at hstep
      subst hstep
      exact h.executeCycle hcycle
  | parse doc period =>
    refine ⟨?_, by simp [SwapsFresh, ReloadsRested, Swaps]⟩
    cases hparse : LogicProgram.fromJson doc period with
    | error e =>
      simp only [RuntimeHistory.step, hparse, Option.some.injEq] at hstep
      subst hstep
      exact h
    | ok program =>
      simp only [RuntimeHistory.step, hparse, Option.some.injEq] at hstep
      subst hstep
      exact h.allocate hparse
  | reload newProgram => exact h.step_reload hstep
  | reloadFromJson doc =>
    obtain ⟨htracked, hfresh⟩ := h.step_reloadFromJson hstep
    exact ⟨htracked, iff_of_true hfresh (by simp [ReloadsRested])⟩

/-- Every swap of a run starts fresh exactly when no swap takes an object whose
last cycle left a timer running. -/
theorem swaps_fresh_iff (period : Int64) (calls : List RuntimeCall) :
    Machine.Along step SwapsFresh (start period) calls ↔
      Machine.Along step ReloadsRested (start period) calls := by
  apply Machine.along_iff Tracked _ (tracked_start period) calls
  intro s call t h hstep
  exact h.step hstep

def pressed : MemoryMap := ({} : MemoryMap).setBitAt ⟨.input, ⟨0, getSize_pos .input⟩, 0⟩ true

/-- `sharedOutputRules` runs once with its input on and is swapped for itself. -/
def swapBackCalls : List RuntimeCall :=
  [.reloadFromJson (canonicalDocument sharedOutputRules), .executeCycle pressed, .reload (some 0)]

theorem swapBack_not_fresh : ¬ Machine.Along step SwapsFresh (start 100) swapBackCalls := by
  intro h
  have hparse := fromJson_of_denotes 100 (denotes_canonicalDocument sharedOutputRules)
  have hvalid := LogicProgram.valid_ofSpecs sharedOutputRules 100
  obtain ⟨s, hload, hcurrent, hobjects⟩ : ∃ s,
      (start 100).step (.reloadFromJson (canonicalDocument sharedOutputRules)) = some s ∧
        s.runtime.current = some 0 ∧ s.runtime.objects = [.ofSpecs sharedOutputRules 100] :=
    ⟨_, step_reloadFromJson hparse, rfl, rfl⟩
  have hobject : s.runtime.object 0 = .ofSpecs sharedOutputRules 100 := by
    simp [LogicRuntime.object, hobjects]
  have hlt : 0 < s.runtime.objects.length := by simp [hobjects]
  have hcycle : s.step (.executeCycle pressed) = some { s with
      runtime := s.runtime.store 0 ((LogicProgram.ofSpecs sharedOutputRules 100).ticked pressed)
      lastCycle := fun a =>
        if s.runtime.current = some a then some (s.runtime.object a, pressed) else s.lastCycle a } := by
    simp only [step, LogicRuntime.executeCycle, hcurrent, hobject, LogicProgram.execute_eq hvalid,
      bind, Except.bind, pure, Except.pure]
  have hback := ((h s hload).2 _ hcycle).2 _ (dif_pos (by simpa using hlt))
  have hzero := (hback.1 trivial 0 rfl).1
  change ((s.runtime.store 0 _).object 0).TimersZero at hzero
  rw [LogicRuntime.object_store_self _ hlt] at hzero
  obtain ⟨_, hoff, _⟩ := (LogicProgram.timersZero_ticked _ _).mp hzero
  have hon := hoff (.signalRefNode (SignalAddr.ref ⟨.input, ⟨0, getSize_pos .input⟩, 0⟩), 0)
    (List.mem_singleton_self _)
  rw [LogicNode.value, LogicNode.readRef_ref, Rule.written_eq rfl, MemoryMap.bitAt_setBitAt,
    if_neg (by decide), pressed, MemoryMap.bitAt_setBitAt, if_pos rfl] at hon
  exact absurd (hon rfl) (by decide)

end RuntimeHistory

end Openaslc
