import Openaslc.ScanSafety
import Openaslc.Streak

/-! The stateless meaning of conditions, and the run of a program against it.
The invariant: each timer's counter is the length of the streak of its input. -/

namespace Openaslc

open Streak

namespace Condition

mutual

/-- The value at call `n`, where `img k` is the image at call `k`. A timer is
on when its input is, and has been for enough consecutive calls. -/
def holds (periodMs : Nat) (img : Nat → MemoryMap) : Condition → Nat → Bool
  | .input a, n => (img n).bitAt a
  | .and first rest, n => holds periodMs img first n && holdsAll periodMs img rest n
  | .or first rest, n => holds periodMs img first n || holdsAny periodMs img rest n
  | .not c, n => !holds periodMs img c n
  | .tonTimer c presetMs, n =>
    holds periodMs img c n &&
      decide (presetMs.val ≤ streak (holds periodMs img c) (n + 1) * periodMs)

def holdsAll (periodMs : Nat) (img : Nat → MemoryMap) : List Condition → Nat → Bool
  | [], _ => true
  | c :: cs, n => holds periodMs img c n && holdsAll periodMs img cs n

def holdsAny (periodMs : Nat) (img : Nat → MemoryMap) : List Condition → Nat → Bool
  | [], _ => false
  | c :: cs, n => holds periodMs img c n || holdsAny periodMs img cs n

end

@[simp] theorem holdsAll_eq (periodMs : Nat) (img : Nat → MemoryMap) (cs : List Condition)
    (n : Nat) : holdsAll periodMs img cs n = cs.all fun c => holds periodMs img c n := by
  induction cs with
  | nil => rfl
  | cons c cs ih => rw [holdsAll, ih, List.all_cons]

@[simp] theorem holdsAny_eq (periodMs : Nat) (img : Nat → MemoryMap) (cs : List Condition)
    (n : Nat) : holdsAny periodMs img cs n = cs.any fun c => holds periodMs img c n := by
  induction cs with
  | nil => rfl
  | cons c cs ih => rw [holdsAny, ih, List.any_cons]

/-- A timer is on when its input was on in as many of the latest calls as the
preset asks for. -/
theorem holds_tonTimer_iff (periodMs : Nat) (img : Nat → MemoryMap) (c : Condition)
    (presetMs : Fin (2 ^ 63)) (n : Nat) :
    holds periodMs img (.tonTimer c presetMs) n = true ↔
      ∃ k, 1 ≤ k ∧ k ≤ n + 1 ∧ presetMs.val ≤ k * periodMs ∧
        ∀ i, n + 1 - k ≤ i → i ≤ n → holds periodMs img c i = true := by
  rw [holds, Bool.and_eq_true, decide_eq_true_iff]
  constructor
  · rintro ⟨hc, hq⟩
    have hs := streak_of_true hc
    obtain ⟨hle, hall⟩ := (le_streak_iff (holds periodMs img c) (n + 1) _).mp (Nat.le_refl _)
    exact ⟨_, by omega, hle, hq, fun i hlo hhi => hall i hlo (by omega)⟩
  · rintro ⟨k, h1, hle, hq, hall⟩
    have hk := (le_streak_iff (holds periodMs img c) (n + 1) k).mpr
      ⟨hle, fun i hlo hhi => hall i hlo (by omega)⟩
    exact ⟨hall n (by omega) (Nat.le_refl n), hq.trans (Nat.mul_le_mul_right periodMs hk)⟩

def streaks (periodMs : Nat) (img : Nat → MemoryMap) (n : Nat) (c : Condition) : UInt64 :=
  UInt64.ofNat (streak (holds periodMs img c) n)

theorem toNat_counter_mul {count periodMs : Nat} {period : UInt64} (hp : period.toNat = periodMs)
    (hlt : count * periodMs < 2 ^ 64) (hpos : 1 ≤ periodMs) :
    (UInt64.ofNat count * period).toNat = count * periodMs := by
  have hc : count ≤ count * periodMs := Nat.le_mul_of_pos_right count hpos
  rw [UInt64.toNat_mul, UInt64.toNat_ofNat', hp, Nat.mod_eq_of_lt (by omega : count < 2 ^ 64),
    Nat.mod_eq_of_lt hlt]

theorem counter_reaches_iff {count periodMs : Nat} {period : UInt64} (presetMs : Fin (2 ^ 63))
    (hp : period.toNat = periodMs) (hlt : (count + 1) * periodMs < 2 ^ 64) (hpos : 1 ≤ periodMs) :
    (UInt64.ofNat count + 1) * period ≥ UInt64.ofNat presetMs.val ↔
      presetMs.val ≤ (count + 1) * periodMs := by
  have hq := presetMs.isLt
  have hc : UInt64.ofNat count + 1 = UInt64.ofNat (count + 1) := by
    rw [UInt64.ofNat_add]
    rfl
  rw [hc, ge_iff_le, UInt64.le_iff_toNat_le, toNat_counter_mul hp hlt hpos, UInt64.toNat_ofNat',
    Nat.mod_eq_of_lt (by omega)]

/-- One evaluation: with each counter at its streak, the node has the
reference value, and every counter moves on to the streak of the next call. -/
theorem value_tick_node {periodMs n : Nat} {period : UInt64} (hp : period.toNat = periodMs)
    (hpos : 1 ≤ periodMs) (hlt : (n + 1) * periodMs < 2 ^ 64) (img : Nat → MemoryMap)
    (c : Condition) :
    (c.node period (streaks periodMs img n)).value (img n) = c.holds periodMs img n ∧
      (c.node period (streaks periodMs img n)).tick (img n) =
        c.node period (streaks periodMs img (n + 1)) := by
  induction c using Condition.induction with
  | input a => exact ⟨LogicNode.readRef_ref _ a, rfl⟩
  | and first rest hf hr =>
    have hv : rest.map (fun c => (c.node period (streaks periodMs img n)).value (img n)) =
        rest.map fun c => c.holds periodMs img n := List.map_congr_left fun c hc => (hr c hc).1
    have ht : rest.map (fun c => (c.node period (streaks periodMs img n)).tick (img n)) =
        rest.map fun c => c.node period (streaks periodMs img (n + 1)) :=
      List.map_congr_left fun c hc => (hr c hc).2
    have hall := congrArg (List.all · id) hv
    simp only [List.all_map, Function.comp_def, id] at hall
    exact ⟨by simp [node, holds, LogicNode.value, hf.1, Function.comp_def, hall],
      by simp [node, LogicNode.tick, hf.2, Function.comp_def, ht]⟩
  | or first rest hf hr =>
    have hv : rest.map (fun c => (c.node period (streaks periodMs img n)).value (img n)) =
        rest.map fun c => c.holds periodMs img n := List.map_congr_left fun c hc => (hr c hc).1
    have ht : rest.map (fun c => (c.node period (streaks periodMs img n)).tick (img n)) =
        rest.map fun c => c.node period (streaks periodMs img (n + 1)) :=
      List.map_congr_left fun c hc => (hr c hc).2
    have hany := congrArg (List.any · id) hv
    simp only [List.any_map, Function.comp_def, id] at hany
    exact ⟨by simp [node, holds, LogicNode.value, hf.1, Function.comp_def, hany],
      by simp [node, LogicNode.tick, hf.2, Function.comp_def, ht]⟩
  | not c ih => exact ⟨by simp [node, holds, LogicNode.value, ih.1], by simp [node, LogicNode.tick, ih.2]⟩
  | tonTimer c presetMs ih =>
    have hs := streak_le (holds periodMs img c) n
    have hmul : (streak (holds periodMs img c) n + 1) * periodMs ≤ (n + 1) * periodMs :=
      Nat.mul_le_mul_right periodMs (by omega)
    have hbound : (streak (holds periodMs img c) n + 1) * periodMs < 2 ^ 64 := by omega
    have hreach := counter_reaches_iff presetMs hp hbound hpos
    cases hc : c.holds periodMs img n with
    | false =>
      have hz := streak_of_false hc
      refine ⟨by simp [node, holds, LogicNode.value, ih.1, hc], ?_⟩
      simp only [node, LogicNode.tick, ih.1, ih.2, hc]
      simp [streaks, hz]
    | true =>
      have hz := streak_of_true hc
      have hcount : streaks periodMs img n c + 1 = streaks periodMs img (n + 1) c := by
        simp only [streaks, hz, UInt64.ofNat_add]
        rfl
      refine ⟨?_, ?_⟩
      · simp only [node, holds, LogicNode.value, ih.1, hc, hz, Bool.true_and]
        exact decide_eq_decide.mpr hreach
      · simp only [node, LogicNode.tick, ih.1, ih.2, hc, if_true, hcount]

end Condition

namespace LogicProgram

/-- The image that rule `j` finds at call `k` of the run. -/
def imageAt (env : Nat → MemoryMap → MemoryMap) (p : LogicProgram) (mem : MemoryMap)
    (j k : Nat) : MemoryMap :=
  let (q, m) := after env p mem k
  imageAfter (q.rules.take j) (env k m)

/-- Rule `j` of the run after `n` calls: only its counters have changed, and
they are the streaks over the images it found. -/
theorem after_rule {periodMs : Nat} {period : Int64} (hp : period.toUInt64.toNat = periodMs)
    (hpos : 1 ≤ periodMs) (rules : List RuleSpec) (env : Nat → MemoryMap → MemoryMap)
    (mem : MemoryMap) {n : Nat} (hn : n * periodMs < 2 ^ 64) (j : Nat) :
    (after env (ofSpecs rules period) mem n).1.rules[j]? = rules[j]?.map fun r =>
      r.rule period.toUInt64
        (Condition.streaks periodMs (imageAt env (ofSpecs rules period) mem j) n) := by
  induction n with
  | zero =>
    simp only [after, ofSpecs, List.getElem?_map]
    rfl
  | succ n ih =>
    have hle : n * periodMs ≤ (n + 1) * periodMs := Nat.mul_le_mul_right periodMs (by omega)
    have hi := ih (by omega)
    simp only [after, ticked, tickRules_getElem?]
    rw [hi, Option.map_map]
    cases hr : rules[j]? with
    | none => rfl
    | some r =>
      have hc := (Condition.value_tick_node hp hpos hn
        (imageAt env (ofSpecs rules period) mem j) r.condition).2
      simp only [Option.map_some, Function.comp_apply, Rule.tick, RuleSpec.rule]
      exact congrArg some (by rw [← hc]; rfl)

theorem imageAt_succ {periodMs : Nat} {period : Int64} (hp : period.toUInt64.toNat = periodMs)
    (hpos : 1 ≤ periodMs) {rules : List RuleSpec} (env : Nat → MemoryMap → MemoryMap)
    (mem : MemoryMap) {n : Nat} (hn : (n + 1) * periodMs < 2 ^ 64) {j : Nat} {r : RuleSpec}
    (hr : rules[j]? = some r) :
    imageAt env (ofSpecs rules period) mem (j + 1) n =
      (imageAt env (ofSpecs rules period) mem j n).setBitAt r.output
        (r.condition.holds periodMs (imageAt env (ofSpecs rules period) mem j) n) := by
  have hle : n * periodMs ≤ (n + 1) * periodMs := Nat.mul_le_mul_right periodMs (by omega)
  have hrule := after_rule hp hpos rules env mem (by omega : n * periodMs < 2 ^ 64) j
  rw [hr, Option.map_some] at hrule
  have hv := (Condition.value_tick_node hp hpos hn
    (imageAt env (ofSpecs rules period) mem j) r.condition).1
  have hstep := imageAfter_take_succ hrule (env n (after env (ofSpecs rules period) mem n).2)
  rw [← hv]
  exact hstep.trans (Rule.written_eq rfl)

/-- Every call of a run writes the reference values, rule by rule, and after
it every counter of every tree is the streak of its input. -/
theorem scan_refines_reference {doc : Json} {period : Int64} {prog : LogicProgram}
    (h : fromJson doc period = .ok prog) (hpos : 1 ≤ period.toInt)
    (env : Nat → MemoryMap → MemoryMap) (mem : MemoryMap) (N : Nat)
    (hN : N * period.toInt.toNat < 2 ^ 64) :
    ∃ (rules : List RuleSpec) (images : Nat → Nat → MemoryMap), DocumentDenotes doc rules ∧
      ∀ n < N, ∃ p m q, prog.scan env mem n = .ok (p, m) ∧ images 0 n = env n m ∧
        p.execute (env n m) = .ok (q, images rules.length n) ∧
        (∀ j r, rules[j]? = some r →
          p.imageBefore (env n m) j = .ok (images j n) ∧
          p.computed (env n m) j =
            .ok (some (r.condition.holds period.toInt.toNat (images j) n)) ∧
          images (j + 1) n = (images j n).setBitAt r.output
            (r.condition.holds period.toInt.toNat (images j) n)) ∧
        ∀ j, q.rules[j]? = rules[j]?.map fun r : RuleSpec => r.rule period.toUInt64
          (Condition.streaks period.toInt.toNat (images j) (n + 1)) := by
  obtain ⟨rules, hd, rfl⟩ := specs_of_fromJson h
  have hvalid := valid_ofSpecs rules period
  have hp := toNat_toUInt64 (by omega : 0 ≤ period.toInt)
  have hpos' : 1 ≤ period.toInt.toNat := by omega
  refine ⟨rules, imageAt env (ofSpecs rules period) mem, hd,
    fun n hn => ?_⟩
  have hmul : (n + 1) * period.toInt.toNat ≤ N * period.toInt.toNat :=
    Nat.mul_le_mul_right _ (by omega)
  have hn1 : (n + 1) * period.toInt.toNat < 2 ^ 64 := by omega
  have hle : n * period.toInt.toNat ≤ (n + 1) * period.toInt.toNat :=
    Nat.mul_le_mul_right _ (by omega)
  have hv := after_valid hvalid env mem n
  have hlen : (after env (ofSpecs rules period) mem n).1.rules.length =
      rules.length := by
    have hout := congrArg List.length (after_output
      (ofSpecs rules period) env mem n)
    simpa [ofSpecs] using hout
  refine ⟨_, _, _, scan_eq hvalid env mem n, rfl, ?_, fun j r hr => ⟨?_, ?_, ?_⟩,
    after_rule hp hpos' rules env mem hn1⟩
  · rw [execute_eq hv]
    have htake : imageAt env (ofSpecs rules period) mem rules.length n =
        imageAfter (after env (ofSpecs rules period) mem n).1.rules
          (env n (after env (ofSpecs rules period) mem n).2) := by
      simp only [imageAt, ← hlen, List.take_length]
    rw [htake]
    rfl
  · exact imageBefore_eq hv _ j
  · have hrule := after_rule hp hpos' rules env mem (by omega : n * period.toInt.toNat < 2 ^ 64) j
    rw [hr, Option.map_some] at hrule
    have hval := (Condition.value_tick_node hp hpos' hn1
      (imageAt env (ofSpecs rules period) mem j) r.condition).1
    rw [computed_eq hv _ hrule, ← hval]
    rfl
  · exact imageAt_succ hp hpos' env mem hn1 hr

theorem scan_refines_reference_sharedOutput :
    ∃ (rules : List RuleSpec) (images : Nat → Nat → MemoryMap),
      DocumentDenotes (canonicalDocument sharedOutputRules) rules ∧
      ∀ n < 5, ∃ p m q, (ofSpecs sharedOutputRules 100).scan (fun _ => id) {} n = .ok (p, m) ∧
        p.execute m = .ok (q, images rules.length n) := by
  have hdoc := fromJson_of_denotes 100 (denotes_canonicalDocument sharedOutputRules)
  obtain ⟨rules, images, hd, hall⟩ :=
    scan_refines_reference hdoc (by decide) (fun _ => id) {} 5 (by decide)
  refine ⟨rules, images, hd, fun n hn => ?_⟩
  obtain ⟨p, m, q, hs, _, he, _⟩ := hall n hn
  exact ⟨p, m, q, hs, he⟩

end LogicProgram

end Openaslc
