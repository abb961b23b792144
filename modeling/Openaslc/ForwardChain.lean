import Openaslc.ReadSet

/-! Programs in which a rule reads only bits that no rule writes, or bits that
an earlier rule has already written in the same call. -/

namespace Openaslc

namespace LogicNode

theorem map_tick_eq_self {mem : MemoryMap} {inputs : List LogicNode}
    (h : ∀ c ∈ inputs, c.tick mem = c) : inputs.map (tick mem) = inputs := by
  rw [List.map_congr_left h, List.map_id']

theorem tick_of_elapsed_nil {mem : MemoryMap} {n : LogicNode} (h : n.elapsed = []) :
    n.tick mem = n := by
  induction n using LogicNode.induction with
  | signalRefNode ref => rfl
  | andNode inputs ih =>
    rw [elapsed, elapsedList_eq, List.flatMap_eq_nil_iff] at h
    rw [tick, ticks_eq_map, map_tick_eq_self fun c hc => ih c hc (h c hc)]
  | orNode inputs ih =>
    rw [elapsed, elapsedList_eq, List.flatMap_eq_nil_iff] at h
    rw [tick, ticks_eq_map, map_tick_eq_self fun c hc => ih c hc (h c hc)]
  | notNode input ih => rw [tick, ih h]
  | tonTimerNode input presetMs periodMs elapsedCycles ih => simp [elapsed] at h

end LogicNode

namespace LogicProgram

/-- No condition contains a timer. -/
def TimerFree (p : LogicProgram) : Prop := ∀ r ∈ p.rules, r.condition.elapsed = []

/-- Whatever rule `j` reads is the output of no rule, or of one before `j`;
rules after `j` may write it again. -/
def ForwardChained (p : LogicProgram) : Prop :=
  ∀ j r, p.rules[j]? = some r → ∀ ref ∈ r.condition.refs,
    (∀ s ∈ p.rules, s.output ≠ ref) ∨ ∃ s ∈ p.rules.take j, s.output = ref

theorem tickRules_of_timerFree {rules : List Rule} (h : ∀ r ∈ rules, r.condition.elapsed = [])
    (mem : MemoryMap) : tickRules rules mem = rules := by
  induction rules generalizing mem with
  | nil => rfl
  | cons r rest ih =>
    have hr : r.tick mem = r := by
      rw [Rule.tick, LogicNode.tick_of_elapsed_nil (h r List.mem_cons_self)]
    rw [tickRules, hr, ih fun s hs => h s (List.mem_cons_of_mem _ hs)]

theorem TimerFree.ticked {p : LogicProgram} (h : p.TimerFree) (mem : MemoryMap) :
    p.ticked mem = p := by
  rw [LogicProgram.ticked, tickRules_of_timerFree h]

/-- The bits that may still differ after `j` rules are outputs that none of
these rules has written, and rule `j` does not read them. -/
theorem ForwardChained.eqOn_prefix {p : LogicProgram} (h : p.ForwardChained) (hp : p.Valid)
    {mem mem' : MemoryMap}
    (hrest : Set.EqOn mem.bitAt mem'.bitAt { a | ∀ s ∈ p.rules, s.output ≠ a.ref }) (j : Nat) :
    Set.EqOn (imageAfter (p.rules.take j) mem).bitAt (imageAfter (p.rules.take j) mem').bitAt
      ({ a | ∀ s ∈ p.rules, s.output ≠ a.ref } ∪
        { a | ∃ s ∈ p.rules.take j, s.output = a.ref }) := by
  induction j with
  | zero => simpa [imageAfter] using hrest
  | succ j ih =>
    cases hr : p.rules[j]? with
    | none =>
      have hlen : p.rules.length ≤ j := List.getElem?_eq_none_iff.mp hr
      have htake : p.rules.take (j + 1) = p.rules.take j := by
        rw [List.take_of_length_le hlen, List.take_of_length_le (Nat.le_succ_of_le hlen)]
      rwa [htake]
    | some r =>
      have hreads : ∀ a : SignalAddr, a.ref ∈ r.condition.refs →
          a ∈ { a | ∀ s ∈ p.rules, s.output ≠ a.ref } ∪
            { a | ∃ s ∈ p.rules.take j, s.output = a.ref } := fun a ha => h j r hr a.ref ha
      obtain ⟨_, hw⟩ := Rule.eqOn_written (hp r (List.mem_of_getElem? hr)) hreads ih
      rw [imageAfter_take_succ hr, imageAfter_take_succ hr]
      apply hw.mono
      rintro a (ha | ⟨s, hs, ha⟩)
      · exact .inl (.inl ha)
      · rw [List.take_add_one, hr] at hs
        rcases List.mem_append.mp hs with hs | hs
        · exact .inl (.inr ⟨s, hs, ha⟩)
        · obtain rfl : s = r := by simpa using hs
          exact .inr ha

theorem ForwardChained.imageAfter_imageAfter {p : LogicProgram} (h : p.ForwardChained)
    (hp : p.Valid) (mem : MemoryMap) :
    imageAfter p.rules (imageAfter p.rules mem) = imageAfter p.rules mem := by
  have hrest : Set.EqOn (imageAfter p.rules mem).bitAt mem.bitAt
      { a | ∀ s ∈ p.rules, s.output ≠ a.ref } := fun a ha =>
    imageAfter_bitAt_of_not_output hp mem ha
  have hall := h.eqOn_prefix hp hrest p.rules.length
  rw [List.take_length] at hall
  apply MemoryMap.ext_bits
  intro a
  apply hall
  by_cases ha : ∃ s ∈ p.rules, s.output = a.ref
  · exact .inr ha
  · exact .inl fun s hs he => ha ⟨s, hs, he⟩

/-- One call settles a program without timers whose rules are in dependency
order: a second call leaves the image, and the program, as they are. -/
theorem execute_settles {doc : Json} {period : Int64} {prog : LogicProgram}
    (hprog : fromJson doc period = .ok prog) (htimers : prog.TimerFree)
    (hchain : prog.ForwardChained) (mem : MemoryMap) :
    ∃ p m, prog.execute mem = .ok (p, m) ∧ p.execute m = .ok (p, m) := by
  have hp := valid_of_fromJson hprog
  have hrun : ∀ m, prog.execute m = .ok (prog, imageAfter prog.rules m) := fun m => by
    rw [execute_eq hp, htimers.ticked]
  refine ⟨prog, imageAfter prog.rules mem, hrun mem, ?_⟩
  rw [hrun, hchain.imageAfter_imageAfter hp]

/-- `%M0.0 := %I0.0`, `%Q0.0 := NOT %M0.0`, and `%M0.0 := %Q0.0` again. -/
def rewrittenMarkerRules : List RuleSpec :=
  let input : SignalAddr := ⟨.input, ⟨0, getSize_pos .input⟩, 0⟩
  let output : SignalAddr := ⟨.output, ⟨0, getSize_pos .output⟩, 0⟩
  let marker : SignalAddr := ⟨.memory, ⟨0, getSize_pos .memory⟩, 0⟩
  [⟨"set", marker, memory_ne_input, .input input⟩, ⟨"drive", output, output_ne_input, .not (.input marker)⟩,
    ⟨"reuse", marker, memory_ne_input, .input output⟩]

theorem forwardChained_rewrittenMarker : (ofSpecs rewrittenMarkerRules 100).ForwardChained := by
  intro j r hr
  have hj : j < 3 := (List.getElem?_eq_some_iff.mp hr).1
  interval_cases j <;> cases hr <;> decide

theorem execute_settles_rewrittenMarker :
    ∃ p m, (ofSpecs rewrittenMarkerRules 100).execute {} = .ok (p, m) ∧
      p.execute m = .ok (p, m) := by
  have hdoc := fromJson_of_denotes 100 (denotes_canonicalDocument rewrittenMarkerRules)
  have htimers : ∀ r ∈ (ofSpecs rewrittenMarkerRules 100).rules, r.condition.elapsed = [] := by
    decide
  exact execute_settles hdoc htimers forwardChained_rewrittenMarker {}

end LogicProgram

end Openaslc
