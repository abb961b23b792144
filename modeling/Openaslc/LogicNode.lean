import Openaslc.MemoryBits

/-! Condition trees and their evaluation. A node mutates its own timer counts
and reads the image; its effect is a value and the next tree. -/

namespace Openaslc

structure SignalRef where
  node : Option String
  area : MemoryArea
  byte : UInt64
  bit : UInt8
  deriving DecidableEq

def SignalAddr.ref (a : SignalAddr) : SignalRef := ⟨none, a.area, a.byteOffset, a.bitIndex⟩

theorem SignalAddr.ref_injective : Function.Injective SignalAddr.ref := by
  intro a a' h
  simp only [ref, SignalRef.mk.injEq, true_and] at h
  obtain ⟨harea, hbyte, hbit⟩ := h
  have hb := congrArg UInt64.toNat hbyte
  have hi := congrArg UInt8.toNat hbit
  rw [toNat_byteOffset, toNat_byteOffset] at hb
  rw [toNat_bitIndex, toNat_bitIndex] at hi
  exact SignalAddr.ext_iff'.mpr ⟨harea, hb, Fin.ext hi⟩

inductive LogicNode
  | signalRefNode (ref : SignalRef)
  | andNode (inputs : List LogicNode)
  | orNode (inputs : List LogicNode)
  | notNode (input : LogicNode)
  | tonTimerNode (input : LogicNode) (presetMs periodMs elapsedCycles : UInt64)

namespace LogicNode

theorem induction {P : LogicNode → Prop} (signalRefNode : ∀ ref, P (.signalRefNode ref))
    (andNode : ∀ inputs, (∀ c ∈ inputs, P c) → P (.andNode inputs))
    (orNode : ∀ inputs, (∀ c ∈ inputs, P c) → P (.orNode inputs))
    (notNode : ∀ input, P input → P (.notNode input))
    (tonTimerNode : ∀ input presetMs periodMs elapsedCycles, P input →
      P (.tonTimerNode input presetMs periodMs elapsedCycles)) (n : LogicNode) : P n :=
  LogicNode.rec signalRefNode andNode orNode notNode tonTimerNode (by simp)
    (fun c cs hc hcs => by simpa [hc] using hcs) n

mutual

def evaluate (mem : MemoryMap) : LogicNode → Except Fault (Bool × LogicNode)
  | .signalRefNode ref => do
    let (value, _) ← (readBit ref.area ref.byte ref.bit).exec mem
    return (value, .signalRefNode ref)
  | .andNode inputs => do
    -- no short-circuit: every child is evaluated, whatever the result so far
    let (result, inputs) ← evaluateInputs mem (fun value result => value && result) true inputs
    return (result, .andNode inputs)
  | .orNode inputs => do
    let (result, inputs) ← evaluateInputs mem (fun value result => value || result) false inputs
    return (result, .orNode inputs)
  | .notNode input => do
    let (value, input) ← evaluate mem input
    return (!value, .notNode input)
  | .tonTimerNode input presetMs periodMs elapsedCycles => do
    let (value, input) ← evaluate mem input
    if !value then
      return (false, .tonTimerNode input presetMs periodMs 0)
    let elapsedCycles := elapsedCycles + 1
    return (decide (elapsedCycles * periodMs ≥ presetMs),
      .tonTimerNode input presetMs periodMs elapsedCycles)

def evaluateInputs (mem : MemoryMap) (combine : Bool → Bool → Bool) (result : Bool) :
    List LogicNode → Except Fault (Bool × List LogicNode)
  | [] => return (result, [])
  | child :: rest => do
    let (value, child) ← evaluate mem child
    let (result, rest) ← evaluateInputs mem combine (combine value result) rest
    return (result, child :: rest)

end

/-! ### Value and next tree, when every reference exists -/

mutual

def refs : LogicNode → List SignalRef
  | .signalRefNode ref => [ref]
  | .andNode inputs => refsList inputs
  | .orNode inputs => refsList inputs
  | .notNode input => refs input
  | .tonTimerNode input _ _ _ => refs input

def refsList : List LogicNode → List SignalRef
  | [] => []
  | child :: rest => refs child ++ refsList rest

end

mutual

def elapsed : LogicNode → List UInt64
  | .signalRefNode _ => []
  | .andNode inputs => elapsedList inputs
  | .orNode inputs => elapsedList inputs
  | .notNode input => elapsed input
  | .tonTimerNode input _ _ elapsedCycles => elapsedCycles :: elapsed input

def elapsedList : List LogicNode → List UInt64
  | [] => []
  | child :: rest => elapsed child ++ elapsedList rest

end

theorem elapsedList_eq (inputs : List LogicNode) : elapsedList inputs = inputs.flatMap elapsed := by
  induction inputs with
  | nil => rfl
  | cons c cs ih => rw [elapsedList, ih, List.flatMap_cons]

def Valid (n : LogicNode) : Prop := ∀ r ∈ n.refs, ∃ a : SignalAddr, r = a.ref

theorem refsList_eq (inputs : List LogicNode) : refsList inputs = inputs.flatMap refs := by
  induction inputs with
  | nil => rfl
  | cons c cs ih => rw [refsList, ih, List.flatMap_cons]

theorem valid_andNode {inputs : List LogicNode} :
    (andNode inputs).Valid ↔ ∀ c ∈ inputs, c.Valid := by
  simp only [Valid, refs, refsList_eq, List.mem_flatMap]
  exact ⟨fun h c hc r hr => h r ⟨c, hc, hr⟩, fun h r ⟨c, hc, hr⟩ => h c hc r hr⟩

theorem valid_orNode {inputs : List LogicNode} :
    (orNode inputs).Valid ↔ ∀ c ∈ inputs, c.Valid := valid_andNode

def readRef (mem : MemoryMap) (ref : SignalRef) : Bool :=
  match (readBit ref.area ref.byte ref.bit).exec mem with
  | .ok (value, _) => value
  | .error _ => false

@[simp] theorem readRef_ref (mem : MemoryMap) (a : SignalAddr) : readRef mem a.ref = mem.bitAt a := by
  simp [readRef, SignalAddr.ref, readBit_addr]

mutual

def value (mem : MemoryMap) : LogicNode → Bool
  | .signalRefNode ref => readRef mem ref
  | .andNode inputs => (values mem inputs).all id
  | .orNode inputs => (values mem inputs).any id
  | .notNode input => !value mem input
  | .tonTimerNode input presetMs periodMs elapsedCycles =>
    value mem input && decide ((elapsedCycles + 1) * periodMs ≥ presetMs)

def values (mem : MemoryMap) : List LogicNode → List Bool
  | [] => []
  | child :: rest => value mem child :: values mem rest

end

mutual

def tick (mem : MemoryMap) : LogicNode → LogicNode
  | .signalRefNode ref => .signalRefNode ref
  | .andNode inputs => .andNode (ticks mem inputs)
  | .orNode inputs => .orNode (ticks mem inputs)
  | .notNode input => .notNode (tick mem input)
  | .tonTimerNode input presetMs periodMs elapsedCycles =>
    .tonTimerNode (tick mem input) presetMs periodMs
      (if value mem input then elapsedCycles + 1 else 0)

def ticks (mem : MemoryMap) : List LogicNode → List LogicNode
  | [] => []
  | child :: rest => tick mem child :: ticks mem rest

end

@[simp] theorem values_eq_map (mem : MemoryMap) (inputs : List LogicNode) :
    values mem inputs = inputs.map (value mem) := by
  induction inputs with
  | nil => rfl
  | cons c cs ih => rw [values, ih, List.map_cons]

@[simp] theorem ticks_eq_map (mem : MemoryMap) (inputs : List LogicNode) :
    ticks mem inputs = inputs.map (tick mem) := by
  induction inputs with
  | nil => rfl
  | cons c cs ih => rw [ticks, ih, List.map_cons]

theorem refs_tick (mem : MemoryMap) (n : LogicNode) : (n.tick mem).refs = n.refs := by
  induction n using LogicNode.induction with
  | signalRefNode ref => rfl
  | andNode inputs ih =>
    simp only [tick, refs, ticks_eq_map, refsList_eq, List.flatMap_map]
    exact List.flatMap_congr ih
  | orNode inputs ih =>
    simp only [tick, refs, ticks_eq_map, refsList_eq, List.flatMap_map]
    exact List.flatMap_congr ih
  | notNode input ih => exact ih
  | tonTimerNode input presetMs periodMs elapsedCycles ih => exact ih

theorem Valid.tick {n : LogicNode} (h : n.Valid) (mem : MemoryMap) : (n.tick mem).Valid := by
  simpa only [Valid, refs_tick] using h

theorem evaluateInputs_eq {mem : MemoryMap} {inputs : List LogicNode}
    (h : ∀ c ∈ inputs, evaluate mem c = .ok (c.value mem, c.tick mem))
    (combine : Bool → Bool → Bool) (result : Bool) :
    evaluateInputs mem combine result inputs =
      .ok (inputs.foldl (fun r c => combine (c.value mem) r) result, inputs.map (tick mem)) := by
  induction inputs generalizing result with
  | nil => rfl
  | cons c cs ih =>
    have hc := h c List.mem_cons_self
    have hcs := ih (fun d hd => h d (List.mem_cons_of_mem _ hd)) (combine (c.value mem) result)
    rw [evaluateInputs, hc]
    simp only [bind, Except.bind, hcs]
    rfl

theorem foldl_and (mem : MemoryMap) (inputs : List LogicNode) (result : Bool) :
    inputs.foldl (fun r c => c.value mem && r) result = (result && inputs.all (value mem)) := by
  induction inputs generalizing result with
  | nil => simp
  | cons c cs ih =>
    rw [List.foldl_cons, ih, List.all_cons]
    cases result <;> cases c.value mem <;> rfl

theorem foldl_or (mem : MemoryMap) (inputs : List LogicNode) (result : Bool) :
    inputs.foldl (fun r c => c.value mem || r) result = (result || inputs.any (value mem)) := by
  induction inputs generalizing result with
  | nil => simp
  | cons c cs ih =>
    rw [List.foldl_cons, ih, List.any_cons]
    cases result <;> cases c.value mem <;> rfl

/-- On a tree whose references all exist, evaluation never throws. -/
theorem evaluate_eq (mem : MemoryMap) {n : LogicNode} (hn : n.Valid) :
    evaluate mem n = .ok (n.value mem, n.tick mem) := by
  induction n using LogicNode.induction with
  | signalRefNode ref =>
    obtain ⟨a, rfl⟩ := hn ref (by simp [refs])
    rw [value, readRef_ref, evaluate]
    simp only [SignalAddr.ref, readBit_addr]
    rfl
  | andNode inputs ih =>
    have hi := evaluateInputs_eq (fun c hc => ih c hc (valid_andNode.mp hn c hc))
    rw [evaluate, hi, foldl_and]
    simp only [bind, Except.bind, pure, Except.pure, value, tick, values_eq_map, ticks_eq_map,
      List.all_map, Bool.true_and]
    rfl
  | orNode inputs ih =>
    have hi := evaluateInputs_eq (fun c hc => ih c hc (valid_orNode.mp hn c hc))
    rw [evaluate, hi, foldl_or]
    simp only [bind, Except.bind, pure, Except.pure, value, tick, values_eq_map, ticks_eq_map,
      List.any_map, Bool.false_or]
    rfl
  | notNode input ih =>
    rw [evaluate, ih hn]
    rfl
  | tonTimerNode input presetMs periodMs elapsedCycles ih =>
    rw [evaluate, ih hn]
    cases hv : input.value mem <;> simp [bind, Except.bind, pure, Except.pure, value, tick, hv]

end LogicNode

end Openaslc
