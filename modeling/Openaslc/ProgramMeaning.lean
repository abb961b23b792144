import Openaslc.Streak
import Openaslc.TimerReference

/-! What a list of rules means without any state: from the images that its
cycles find to the images that its rules leave. -/

namespace Openaslc

open Streak

namespace Condition

theorem causal_holds (periodMs : Nat) (c : Condition) :
    Causal fun img => holds periodMs img c := by
  induction c using Condition.induction with
  | input a =>
    have hread := Causal.map fun mem : MemoryMap => mem.bitAt a
    simpa only [holds] using hread
  | and first rest hf hr =>
    have hall : Causal fun img => holdsAll periodMs img rest := by
      intro img img' n h
      show holdsAll periodMs img rest n = holdsAll periodMs img' rest n
      rw [holdsAll_eq, holdsAll_eq, Bool.eq_iff_iff, List.all_eq_true, List.all_eq_true]
      refine forall_congr' fun c => forall_congr' fun hc => ?_
      have hsame := hr c hc img img' n h
      simp only [hsame]
    have hboth := hf.map₂ hall fun x y => x && y
    simpa only [holds] using hboth
  | or first rest hf hr =>
    have hany : Causal fun img => holdsAny periodMs img rest := by
      intro img img' n h
      show holdsAny periodMs img rest n = holdsAny periodMs img' rest n
      rw [holdsAny_eq, holdsAny_eq, Bool.eq_iff_iff, List.any_eq_true, List.any_eq_true]
      refine exists_congr fun c => and_congr_right fun hc => ?_
      have hsame := hr c hc img img' n h
      simp only [hsame]
    have hboth := hf.map₂ hany fun x y => x || y
    simpa only [holds] using hboth
  | not c ih =>
    have hnot := (Causal.map fun x : Bool => !x).comp ih
    simpa only [holds] using hnot
  | tonTimer c presetMs ih =>
    have htimer := ih.map₂ (Causal.streak.comp ih)
      fun on count => on && decide (presetMs.val ≤ count * periodMs)
    simpa only [holds] using htimer

theorem streaks_congr {periodMs n : Nat} {img img' : Nat → MemoryMap}
    (h : ∀ k < n, img k = img' k) : streaks periodMs img n = streaks periodMs img' n := by
  funext c
  have hstreak : streak (c.holds periodMs img) n = streak (c.holds periodMs img') n := by
    apply streak_congr
    intro k hk
    exact c.causal_holds periodMs img img' k fun i hi => h i (Nat.lt_of_le_of_lt hi hk)
  rw [streaks, streaks, hstreak]

end Condition

/-- `meaning periodMs rules found j n` is the image that rule `j` finds in cycle
`n`, when the cycles find the images `found`. -/
def meaning (periodMs : Nat) (rules : List RuleSpec) (found : Nat → MemoryMap) :
    Nat → Nat → MemoryMap
  | 0 => found
  | j + 1 =>
    let before := meaning periodMs rules found j
    match rules[j]? with
    | some r => fun n => (before n).setBitAt r.output (r.condition.holds periodMs before n)
    | none => before

theorem meaning_succ {rules : List RuleSpec} {j : Nat} {r : RuleSpec} (hr : rules[j]? = some r)
    (periodMs : Nat) (found : Nat → MemoryMap) (n : Nat) :
    meaning periodMs rules found (j + 1) n = (meaning periodMs rules found j n).setBitAt r.output
      (r.condition.holds periodMs (meaning periodMs rules found j) n) := by
  rw [meaning, hr]

theorem causal_meaning (periodMs : Nat) (rules : List RuleSpec) (j : Nat) :
    Causal fun found => meaning periodMs rules found j := by
  induction j with
  | zero => exact Causal.id
  | succ j ih =>
    cases hr : rules[j]? with
    | none =>
      simp only [meaning, hr]
      exact ih
    | some r =>
      have hvalue := (r.condition.causal_holds periodMs).comp ih
      have hwrite := ih.map₂ hvalue fun mem value => mem.setBitAt r.output value
      simpa only [meaning, hr] using hwrite

/-! ### The nodes of a program between two rules -/

/-- Rule `j` of a program of which the first `i` rules have run `n + 1` times
and the others `n` times. -/
def RuleSpec.counted (r : RuleSpec) (period : UInt64) (periodMs : Nat) (img : Nat → MemoryMap)
    (n : Nat) : Rule :=
  r.rule period (Condition.streaks periodMs img n)

theorem RuleSpec.counted_execute {r : RuleSpec} {period : UInt64} {periodMs n : Nat}
    (hp : period.toNat = periodMs) (hpos : 1 ≤ periodMs) (hlt : (n + 1) * periodMs < 2 ^ 64)
    (img : Nat → MemoryMap) :
    (r.counted period periodMs img n).execute (img n) =
      .ok (r.counted period periodMs img (n + 1),
        (img n).setBitAt r.output (r.condition.holds periodMs img n)) := by
  obtain ⟨hvalue, htick⟩ := Condition.value_tick_node hp hpos hlt img r.condition
  have hwritten : (r.counted period periodMs img n).written (img n) =
      (img n).setBitAt r.output (r.condition.holds periodMs img n) := by
    rw [← hvalue]
    exact Rule.written_eq rfl
  have hticked : (r.counted period periodMs img n).tick (img n) =
      r.counted period periodMs img (n + 1) := by
    simp only [Rule.tick, RuleSpec.counted, RuleSpec.rule, htick]
  have hvalid : (r.counted period periodMs img n).Valid := r.valid_rule period _
  rw [Rule.execute_eq hvalid, hticked, hwritten]

end Openaslc
