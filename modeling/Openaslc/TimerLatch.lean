import Openaslc.LogicGrammar
import Openaslc.Streak

/-! Calls of one `TonTimerNode`, one after the other. Its 64-bit product wraps,
and with it the output may fall while the input stays on. -/

namespace Openaslc

open Streak

namespace LogicNode

def afterCalls (img : Nat → MemoryMap) (node : LogicNode) : Nat → Except Fault LogicNode
  | 0 => return node
  | n + 1 => do
    let node ← afterCalls img node n
    let (_, node) ← node.evaluate (img n)
    return node

def outputAt (img : Nat → MemoryMap) (node : LogicNode) (n : Nat) : Except Fault Bool := do
  let node ← afterCalls img node n
  let (output, _) ← node.evaluate (img n)
  return output

/-- `TonTimerNode(input, preset_ms, period)` -/
def newTonTimer (input : LogicNode) (presetMs : UInt64) (period : Int64) : LogicNode :=
  .tonTimerNode input presetMs period.toUInt64 0

theorem evaluate_tonTimer {mem : MemoryMap} {input input' : LogicNode} {on : Bool}
    (h : evaluate mem input = .ok (on, input')) (presetMs periodMs elapsedCycles : UInt64) :
    evaluate mem (.tonTimerNode input presetMs periodMs elapsedCycles) =
      .ok (on && decide ((elapsedCycles + 1) * periodMs ≥ presetMs),
        .tonTimerNode input' presetMs periodMs (if on then elapsedCycles + 1 else 0)) := by
  rw [evaluate, h]
  cases on <;> simp [bind, Except.bind, pure, Except.pure]

theorem afterCalls_outputAt {img : Nat → MemoryMap} {node : LogicNode} {n : Nat} {output : Bool}
    (h : outputAt img node n = .ok output) : ∃ before after, afterCalls img node n = .ok before ∧
      before.evaluate (img n) = .ok (output, after) ∧ afterCalls img node (n + 1) = .ok after := by
  rw [outputAt] at h
  cases hb : afterCalls img node n with
  | error e => simp [hb, bind, Except.bind] at h
  | ok before =>
    cases he : before.evaluate (img n) with
    | error e => simp [hb, he, bind, Except.bind] at h
    | ok result =>
      obtain ⟨output', after⟩ := result
      simp only [hb, he, bind, Except.bind, pure, Except.pure, Except.ok.injEq] at h
      subst h
      exact ⟨before, after, rfl, he, by simp [afterCalls, hb, he, bind, Except.bind, pure, Except.pure]⟩

theorem afterCalls_newTonTimer {img : Nat → MemoryMap} {input : LogicNode} {on : Nat → Bool} {n : Nat}
    (h : ∀ i < n, outputAt img input i = .ok (on i)) (presetMs : UInt64) (period : Int64) :
    ∃ input', afterCalls img input n = .ok input' ∧
      afterCalls img (newTonTimer input presetMs period) n =
        .ok (.tonTimerNode input' presetMs period.toUInt64 (UInt64.ofNat (streak on n))) := by
  induction n with
  | zero => exact ⟨input, rfl, rfl⟩
  | succ n ih =>
    obtain ⟨input', hinput, htimer⟩ := ih fun i hi => h i (by omega)
    obtain ⟨before, after, hbefore, heval, hafter⟩ := afterCalls_outputAt (h n (by omega))
    obtain rfl : input' = before := Except.ok.inj (hinput.symm.trans hbefore)
    have hstep := evaluate_tonTimer heval presetMs period.toUInt64 (UInt64.ofNat (streak on n))
    refine ⟨after, hafter, ?_⟩
    rw [afterCalls, htimer]
    simp only [bind, Except.bind, hstep, pure, Except.pure]
    cases hon : on n with
    | false => simp [streak_of_false hon]
    | true => simp [streak_of_true hon, UInt64.ofNat_add]

end LogicNode

/-! ### Counts and their products modulo 2^64 -/

def Reached (presetMs periodMs count : Nat) : Prop := presetMs ≤ count * periodMs % 2 ^ 64

instance (presetMs periodMs count : Nat) : Decidable (Reached presetMs periodMs count) :=
  inferInstanceAs (Decidable (_ ≤ _))

theorem toNat_ge_iff (count : Nat) (presetMs periodMs : UInt64) :
    (UInt64.ofNat count + 1) * periodMs ≥ presetMs ↔
      Reached presetMs.toNat periodMs.toNat (count + 1) := by
  have hone : UInt64.ofNat count + 1 = UInt64.ofNat (count + 1) := by
    rw [UInt64.ofNat_add]
    rfl
  rw [hone, ge_iff_le, UInt64.le_iff_toNat_le, UInt64.toNat_mul, UInt64.toNat_ofNat', Nat.mod_mul_mod]
  rfl

/-- Once an output is on, it is on at every later call up to which the input
has stayed on. -/
def Latched (on output : Nat → Bool) (n : Nat) : Prop :=
  ∀ i j, i < j → j < n → output i = true → (∀ k, i < k → k ≤ j → on k = true) → output j = true

/-- The first count whose product is no less than the preset is small enough
not to wrap. -/
theorem exists_reached {presetMs periodMs count : Nat} (hpreset : presetMs < 2 ^ 63)
    (hperiod : periodMs < 2 ^ 63) (h : presetMs ≤ count * periodMs) :
    ∃ first ≤ count, Reached presetMs periodMs first ∧ (first = 0 → presetMs = 0) := by
  have hex : ∃ k, presetMs ≤ k * periodMs := ⟨count, h⟩
  obtain ⟨first, hfirst⟩ : ∃ first, first = Nat.find hex := ⟨_, rfl⟩
  have hspec : presetMs ≤ first * periodMs := hfirst ▸ Nat.find_spec hex
  have hle : first ≤ count := hfirst ▸ Nat.find_min' hex h
  refine ⟨first, hle, ?_, fun hzero => by simpa [hzero] using hspec⟩
  have hlt : first * periodMs < 2 ^ 64 := by
    cases hcase : first with
    | zero => simp
    | succ k =>
      have hk : ¬ presetMs ≤ k * periodMs := Nat.find_min hex (by omega)
      rw [Nat.succ_mul]
      omega
  rw [Reached, Nat.mod_eq_of_lt hlt]
  exact hspec

theorem latched_iff {presetMs periodMs : Nat} (hpreset : presetMs < 2 ^ 63)
    (hperiod : periodMs < 2 ^ 63) {on output : Nat → Bool} {n : Nat}
    (houtput : ∀ i < n, output i = (on i && decide (Reached presetMs periodMs (streak on (i + 1))))) :
    Latched on output n ↔ ∀ m ≤ n, presetMs ≤ streak on m * periodMs →
      Reached presetMs periodMs (streak on m) := by
  constructor
  · intro hlatched m hm hge
    by_contra hnot
    obtain ⟨first, hle, hreached, hzero⟩ := exists_reached hpreset hperiod hge
    have hpos : first ≠ 0 := by
      intro hf
      apply hnot
      simp [Reached, hzero hf]
    have hne : first ≠ streak on m := fun he => hnot (he ▸ hreached)
    have hmle := streak_le on m
    obtain ⟨_, hall⟩ := (le_streak_iff on m (streak on m)).mp (Nat.le_refl _)
    -- the call at which the streak had its first sufficient length
    obtain ⟨i, hi⟩ : ∃ i, i = m - (streak on m - first) - 1 := ⟨_, rfl⟩
    have hsub := @streak_sub on m (streak on m - first) (by omega)
    have hstart : streak on (i + 1) = first := by
      have hindex : i + 1 = m - (streak on m - first) := by omega
      rw [hindex, hsub]
      omega
    have hi_on := hall i (by omega) (by omega)
    have hlast_on := hall (m - 1) (by omega) (by omega)
    have hup : output i = true := by
      rw [houtput i (by omega), hi_on, hstart]
      simpa using hreached
    have hdown := hlatched i (m - 1) (by omega) (by omega) hup
      fun k hlo hhi => hall k (by omega) (by omega)
    have hend : m - 1 + 1 = m := by omega
    rw [houtput (m - 1) (by omega), hend] at hdown
    simp only [Bool.and_eq_true, decide_eq_true_eq] at hdown
    exact hnot hdown.2
  · intro hcounts i j hij hj hup hon
    rw [houtput i (by omega)] at hup
    simp only [Bool.and_eq_true, decide_eq_true_eq] at hup
    have hlonger : streak on (i + 1 + (j - i)) = streak on (i + 1) + (j - i) :=
      streak_add fun k hlo hhi => hon k (by omega) (by omega)
    have hindex : i + 1 + (j - i) = j + 1 := by omega
    rw [hindex] at hlonger
    have hge : presetMs ≤ streak on (j + 1) * periodMs := by
      have hfirst : presetMs ≤ streak on (i + 1) * periodMs := hup.2.trans (Nat.mod_le _ _)
      exact hfirst.trans (Nat.mul_le_mul_right periodMs (by omega))
    rw [houtput j hj, hon j hij (Nat.le_refl j)]
    simpa using hcounts (j + 1) (by omega) hge

/-! ### The node -/

namespace LogicNode

theorem outputAt_newTonTimer {img : Nat → MemoryMap} {input : LogicNode} {on : Nat → Bool} {n : Nat}
    (h : ∀ i < n, outputAt img input i = .ok (on i)) (presetMs : UInt64) (period : Int64) {i : Nat}
    (hi : i < n) :
    outputAt img (newTonTimer input presetMs period) i =
      .ok (on i && decide (Reached presetMs.toNat period.toUInt64.toNat (streak on (i + 1)))) := by
  have hearlier : ∀ k < i, outputAt img input k = .ok (on k) := fun k hk => h k (by omega)
  obtain ⟨input', hinput, htimer⟩ := afterCalls_newTonTimer hearlier presetMs period
  obtain ⟨before, after, hbefore, heval, _⟩ := afterCalls_outputAt (h i hi)
  obtain rfl : input' = before := Except.ok.inj (hinput.symm.trans hbefore)
  rw [outputAt, htimer]
  simp only [bind, Except.bind, evaluate_tonTimer heval, toNat_ge_iff, pure, Except.pure]
  cases hon : on i with
  | false => simp
  | true => simp [streak_of_true hon]

/-- A timer latches in a run unless the input stays on for a count at which the
product has wrapped to below the preset. -/
theorem tonTimer_latched_iff {img : Nat → MemoryMap} {input : LogicNode} {presetMs : UInt64}
    {period : Int64} {on output : Nat → Bool} {n : Nat}
    (hpreset : presetMs.toNat < 2 ^ 63) (hperiod : 1 ≤ period.toInt)
    (hin : ∀ i < n, outputAt img input i = .ok (on i))
    (hout : ∀ i < n, outputAt img (newTonTimer input presetMs period) i = .ok (output i)) :
    Latched on output n ↔ ∀ m ≤ n, presetMs.toNat ≤ streak on m * period.toInt.toNat →
      Reached presetMs.toNat period.toInt.toNat (streak on m) := by
  have hlt : period.toInt.toNat < 2 ^ 63 := by
    have hmax := period.toInt_lt
    omega
  apply latched_iff hpreset hlt
  intro i hi
  have hvalue := outputAt_newTonTimer hin presetMs period hi
  rw [hout i hi, Openaslc.toNat_toUInt64 (by omega : 0 ≤ period.toInt)] at hvalue
  exact Except.ok.inj hvalue

def closedContact : LogicNode := .notNode (.signalRefNode ⟨none, .input, 0, 0⟩)

theorem outputAt_closedContact (i : Nat) : outputAt (fun _ => {}) closedContact i = .ok true := by
  have hafter : afterCalls (fun _ => {}) closedContact i = .ok closedContact := by
    induction i with
    | zero => rfl
    | succ i ih =>
      rw [afterCalls, ih]
      rfl
  rw [outputAt, hafter]
  rfl

def longPeriod : Int64 := 0x4000000000000000

theorem outputAt_longPeriod : ∀ i < 4, outputAt (fun _ => {})
    (newTonTimer closedContact longPeriod.toUInt64 longPeriod) i = .ok (decide (i < 3)) := by
  intro i hi
  rw [outputAt_newTonTimer (fun k (_ : k < 4) => outputAt_closedContact k) _ _ hi]
  interval_cases i <;> decide +kernel

theorem tonTimer_not_latched : ¬ ∀ (img : Nat → MemoryMap) (input : LogicNode) (presetMs : UInt64)
    (period : Int64) (on output : Nat → Bool) (n : Nat), presetMs.toNat < 2 ^ 63 →
    1 ≤ period.toInt → (∀ i < n, outputAt img input i = .ok (on i)) →
    (∀ i < n, outputAt img (newTonTimer input presetMs period) i = .ok (output i)) →
    Latched on output n := by
  intro hall
  have hlatched := hall (fun _ => {}) closedContact longPeriod.toUInt64 longPeriod (fun _ => true)
    (fun i => decide (i < 3)) 4 (by decide) (by decide) (fun i _ => outputAt_closedContact i)
    outputAt_longPeriod
  have hlast := hlatched 2 3 (by decide) (by decide) (by decide) (fun _ _ _ => rfl)
  cases hlast

theorem tonTimer_latched_iff_closedContact :
    Latched (fun _ => true) (fun i => decide (i < 3)) 4 ↔
      ∀ m ≤ 4, longPeriod.toUInt64.toNat ≤ streak (fun _ => true) m * longPeriod.toInt.toNat →
        Reached longPeriod.toUInt64.toNat longPeriod.toInt.toNat (streak (fun _ => true) m) :=
  tonTimer_latched_iff (by decide) (by decide) (fun i _ => outputAt_closedContact i)
    outputAt_longPeriod

end LogicNode

end Openaslc
