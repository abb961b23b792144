import Openaslc.ReadSet

/-! Two adjacent rules that do not meet: neither reads or writes the bit that
the other one writes. Their order makes no difference. -/

namespace Openaslc

theorem MemoryMap.setBitAt_comm (mem : MemoryMap) {a b : SignalAddr} (h : a ≠ b) (v w : Bool) :
    (mem.setBitAt a v).setBitAt b w = (mem.setBitAt b w).setBitAt a v := by
  refine MemoryMap.ext_bits fun c => ?_
  simp only [MemoryMap.bitAt_setBitAt]
  by_cases hca : c = a
  · have hcb : c ≠ b := hca ▸ h
    rw [if_pos hca, if_neg hcb, if_pos hca]
  · rw [if_neg hca, if_neg hca]

structure Rule.Independent (r s : Rule) : Prop where
  output : r.output ≠ s.output
  left : s.output ∉ r.condition.refs
  right : r.output ∉ s.condition.refs

namespace Rule.Independent

variable {r s : Rule}

theorem symm (h : r.Independent s) : s.Independent r := ⟨h.output.symm, h.right, h.left⟩

theorem tick (h : r.Independent s) (mem mem' : MemoryMap) : (r.tick mem).Independent (s.tick mem') := by
  refine ⟨h.output, ?_, ?_⟩
  · rw [Rule.tick, LogicNode.refs_tick]
    exact h.left
  · rw [Rule.tick, LogicNode.refs_tick]
    exact h.right

theorem value_tick_written (h : r.Independent s) (hr : r.Valid) (hs : s.Valid) (mem : MemoryMap) :
    s.condition.value (r.written mem) = s.condition.value mem ∧
      s.tick (r.written mem) = s.tick mem := by
  obtain ⟨a, ha, _⟩ := hr.2
  have hsame : Set.EqOn (r.written mem).bitAt mem.bitAt { b | b.ref ∈ s.condition.refs } := by
    intro b hb
    have hne : b ≠ a := fun he => h.right (ha ▸ he ▸ hb)
    rw [Rule.written_eq ha, MemoryMap.bitAt_setBitAt, if_neg hne]
  obtain ⟨hv, ht⟩ := LogicNode.value_tick_congr hs.1 hsame
  exact ⟨hv, by rw [Rule.tick, Rule.tick, ht]⟩

theorem written_comm (h : r.Independent s) (hr : r.Valid) (hs : s.Valid) (mem : MemoryMap) :
    s.written (r.written mem) = r.written (s.written mem) := by
  have hsv := (h.value_tick_written hr hs mem).1
  have hrv := (h.symm.value_tick_written hs hr mem).1
  obtain ⟨a, ha, _⟩ := hr.2
  obtain ⟨b, hb, _⟩ := hs.2
  have hne : a ≠ b := fun he => h.output (by rw [ha, hb, he])
  have hfirst : r.written (s.written mem) =
      (s.written mem).setBitAt a (r.condition.value (s.written mem)) := Rule.written_eq ha
  rw [hfirst, hrv, Rule.written_eq hb, hsv, Rule.written_eq ha, Rule.written_eq hb]
  exact mem.setBitAt_comm hne _ _

end Rule.Independent

theorem tickRules_append (rules rest : List Rule) (mem : MemoryMap) :
    tickRules (rules ++ rest) mem = tickRules rules mem ++ tickRules rest (imageAfter rules mem) := by
  induction rules generalizing mem with
  | nil => rfl
  | cons r rules ih => simp [tickRules, imageAfter, ih]

theorem length_tickRules (rules : List Rule) (mem : MemoryMap) :
    (tickRules rules mem).length = rules.length := by
  induction rules generalizing mem with
  | nil => rfl
  | cons r rules ih => simp [tickRules, ih]

namespace LogicProgram

def Exchanged (i : Nat) (p q : LogicProgram) : Prop :=
  ∃ pre r s post, p.rules = pre ++ r :: s :: post ∧ q.rules = pre ++ s :: r :: post ∧
    pre.length = i ∧ r.Independent s

theorem Exchanged.ticked {i : Nat} {p q : LogicProgram} (h : Exchanged i p q) (hp : p.Valid)
    (mem : MemoryMap) :
    Exchanged i (p.ticked mem) (q.ticked mem) ∧ imageAfter q.rules mem = imageAfter p.rules mem := by
  obtain ⟨pre, r, s, post, hpr, hqr, hlen, hind⟩ := h
  have hr : r.Valid := hp r (by simp [hpr])
  have hs : s.Valid := hp s (by simp [hpr])
  have hmem : ∀ m, s.written (r.written m) = r.written (s.written m) := hind.written_comm hr hs
  have hst : ∀ m, s.tick (r.written m) = s.tick m := fun m => (hind.value_tick_written hr hs m).2
  have hrt : ∀ m, r.tick (s.written m) = r.tick m := fun m =>
    (hind.symm.value_tick_written hs hr m).2
  refine ⟨⟨tickRules pre mem, r.tick (imageAfter pre mem), s.tick (imageAfter pre mem),
    tickRules post (s.written (r.written (imageAfter pre mem))), ?_, ?_, ?_, hind.tick _ _⟩, ?_⟩
  · simp [LogicProgram.ticked, hpr, tickRules_append, tickRules, hst]
  · simp [LogicProgram.ticked, hqr, tickRules_append, tickRules, hrt, hmem]
  · rw [length_tickRules, hlen]
  · simp [hpr, hqr, imageAfter, hmem]

theorem after_exchanged {i : Nat} {p q : LogicProgram} (h : Exchanged i p q) (hp : p.Valid)
    (env : Nat → MemoryMap → MemoryMap) (mem : MemoryMap) (n : Nat) :
    Exchanged i (after env p mem n).1 (after env q mem n).1 ∧
      (after env q mem n).2 = (after env p mem n).2 := by
  induction n with
  | zero => exact ⟨h, rfl⟩
  | succ n ih =>
    obtain ⟨hex, himage⟩ := ih
    have hstep := hex.ticked (after_valid hp env mem n) (env n (after env p mem n).2)
    simp only [after, himage]
    exact hstep

theorem Exchanged.valid {i : Nat} {p q : LogicProgram} (h : Exchanged i p q) (hp : p.Valid) :
    q.Valid := by
  obtain ⟨pre, r, s, post, hpr, hqr, _⟩ := h
  intro t ht
  refine hp t ?_
  simp only [hqr, List.mem_append, List.mem_cons] at ht
  simp only [hpr, List.mem_append, List.mem_cons]
  tauto

/-- Two adjacent rules that do not meet may change places: every call of every
run leaves the same image, and every rule the same timers. -/
theorem independent_rules_commute {doc : Json} {period : Int64} {prog : LogicProgram}
    (h : fromJson doc period = .ok prog) {pre post : List Rule} {r s : Rule}
    (hrules : prog.rules = pre ++ r :: s :: post) (hind : r.Independent s)
    (env : Nat → MemoryMap → MemoryMap) (mem : MemoryMap) (n : Nat) :
    ∃ pre' r' s' post' m, pre'.length = pre.length ∧
      prog.scan env mem n = .ok (⟨pre' ++ r' :: s' :: post'⟩, m) ∧
      scan env ⟨pre ++ s :: r :: post⟩ mem n = .ok (⟨pre' ++ s' :: r' :: post'⟩, m) := by
  have hvalid := valid_of_fromJson h
  have hex : Exchanged pre.length prog ⟨pre ++ s :: r :: post⟩ :=
    ⟨pre, r, s, post, hrules, rfl, rfl, hind⟩
  have hscan := scan_eq hvalid env mem n
  have hscan' := scan_eq (hex.valid hvalid) env mem n
  obtain ⟨⟨pre', r', s', post', hp', hq', hlen, _⟩, himage⟩ := after_exchanged hex hvalid env mem n
  refine ⟨pre', r', s', post', (after env prog mem n).2, hlen, ?_, ?_⟩
  · rw [hscan, ← hp']
  · rw [hscan', ← hq', ← himage]

/-- `%Q0.0 := TON(%I0.0, 150)` and `%Q0.1 := NOT %I0.0`, two bits of one byte. -/
def sharedByteRules : List RuleSpec :=
  let input : SignalAddr := ⟨.input, ⟨0, getSize_pos .input⟩, 0⟩
  [⟨"delayed", ⟨.output, ⟨0, getSize_pos .output⟩, 0⟩, output_ne_input, .tonTimer (.input input) 150⟩,
    ⟨"inverted", ⟨.output, ⟨0, getSize_pos .output⟩, 1⟩, output_ne_input, .not (.input input)⟩]

theorem independent_rules_commute_sharedByte :
    ∃ pre' r' s' post' m, pre'.length = 0 ∧
      (ofSpecs sharedByteRules 100).scan (fun _ => id) {} 3 =
        .ok (⟨pre' ++ r' :: s' :: post'⟩, m) ∧
      scan (fun _ => id) ⟨(ofSpecs sharedByteRules 100).rules.reverse⟩ {} 3 =
        .ok (⟨pre' ++ s' :: r' :: post'⟩, m) := by
  have hdoc := fromJson_of_denotes 100 (denotes_canonicalDocument sharedByteRules)
  exact @independent_rules_commute _ _ _ hdoc [] [] _ _ rfl ⟨by decide, by decide, by decide⟩
    (fun _ => id) {} 3

end LogicProgram

end Openaslc
