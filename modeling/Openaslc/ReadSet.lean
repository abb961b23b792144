import Openaslc.ScanSafety

/-! Two runs of one program side by side. The bits that its conditions read
are all that can make a difference. -/

namespace Openaslc

def LogicProgram.readSet (p : LogicProgram) : Set SignalAddr :=
  { a | ∃ r ∈ p.rules, a.ref ∈ r.condition.refs }

def LogicProgram.outputSet (p : LogicProgram) : Set SignalAddr := { a | ∃ r ∈ p.rules, r.output = a.ref }

namespace LogicNode

theorem map_value_tick {mem mem' : MemoryMap} {inputs : List LogicNode}
    (h : ∀ c ∈ inputs, c.value mem = c.value mem' ∧ c.tick mem = c.tick mem') :
    inputs.map (value mem) = inputs.map (value mem') ∧
      inputs.map (tick mem) = inputs.map (tick mem') :=
  ⟨List.map_congr_left fun c hc => (h c hc).1, List.map_congr_left fun c hc => (h c hc).2⟩

theorem eqOn_child {mem mem' : MemoryMap} {inputs : List LogicNode} {c : LogicNode} (hc : c ∈ inputs)
    (h : Set.EqOn mem.bitAt mem'.bitAt { a | a.ref ∈ refsList inputs }) :
    Set.EqOn mem.bitAt mem'.bitAt { a | a.ref ∈ c.refs } := by
  refine h.mono fun a ha => ?_
  show a.ref ∈ refsList inputs
  rw [refsList_eq]
  exact List.mem_flatMap.mpr ⟨c, hc, ha⟩

theorem value_tick_congr {mem mem' : MemoryMap} {n : LogicNode} (hn : n.Valid)
    (h : Set.EqOn mem.bitAt mem'.bitAt { a | a.ref ∈ n.refs }) :
    n.value mem = n.value mem' ∧ n.tick mem = n.tick mem' := by
  induction n using LogicNode.induction with
  | signalRefNode ref =>
    obtain ⟨a, rfl⟩ := hn ref (by simp [refs])
    have ha := h (show a.ref ∈ (signalRefNode a.ref).refs by simp [refs])
    exact ⟨by simpa [value] using ha, rfl⟩
  | andNode inputs ih =>
    obtain ⟨hv, ht⟩ := map_value_tick fun c hc => ih c hc (valid_andNode.mp hn c hc) (eqOn_child hc h)
    exact ⟨by rw [value, value, values_eq_map, values_eq_map, hv],
      by rw [tick, tick, ticks_eq_map, ticks_eq_map, ht]⟩
  | orNode inputs ih =>
    obtain ⟨hv, ht⟩ := map_value_tick fun c hc => ih c hc (valid_orNode.mp hn c hc) (eqOn_child hc h)
    exact ⟨by rw [value, value, values_eq_map, values_eq_map, hv],
      by rw [tick, tick, ticks_eq_map, ticks_eq_map, ht]⟩
  | notNode input ih =>
    obtain ⟨hv, ht⟩ := ih hn h
    exact ⟨by rw [value, value, hv], by rw [tick, tick, ht]⟩
  | tonTimerNode input presetMs periodMs elapsedCycles ih =>
    obtain ⟨hv, ht⟩ := ih hn h
    exact ⟨by rw [value, value, hv], by rw [tick, tick, ht, hv]⟩

end LogicNode

theorem eqOn_setBitAt {mem mem' : MemoryMap} {S : Set SignalAddr}
    (h : Set.EqOn mem.bitAt mem'.bitAt S) (a : SignalAddr) (value : Bool) :
    Set.EqOn (mem.setBitAt a value).bitAt (mem'.setBitAt a value).bitAt (insert a S) := by
  intro b hb
  rw [MemoryMap.bitAt_setBitAt, MemoryMap.bitAt_setBitAt]
  by_cases hba : b = a
  · rw [if_pos hba, if_pos hba]
  · rw [if_neg hba, if_neg hba]
    exact h (hb.resolve_left hba)

theorem Rule.eqOn_written {mem mem' : MemoryMap} {S : Set SignalAddr} {r : Rule} (hr : r.Valid)
    (hreads : ∀ a : SignalAddr, a.ref ∈ r.condition.refs → a ∈ S)
    (h : Set.EqOn mem.bitAt mem'.bitAt S) :
    r.tick mem = r.tick mem' ∧
      Set.EqOn (r.written mem).bitAt (r.written mem').bitAt (S ∪ { a | r.output = a.ref }) := by
  obtain ⟨hv, ht⟩ := LogicNode.value_tick_congr hr.1 (h.mono hreads)
  obtain ⟨b, hb, _⟩ := hr.2
  refine ⟨by rw [Rule.tick, Rule.tick, ht], ?_⟩
  rw [Rule.written_eq hb, Rule.written_eq hb, hv]
  refine (eqOn_setBitAt h b _).mono fun a ha => ?_
  rcases ha with ha | ha
  · exact Set.mem_insert_of_mem b ha
  · exact .inl (SignalAddr.ref_injective (ha.symm.trans hb))

/-- A pass over the rules keeps what agreed and makes the outputs agree. -/
theorem eqOn_imageAfter {rules : List Rule} (hvalid : ∀ r ∈ rules, r.Valid) {S : Set SignalAddr}
    (hreads : ∀ r ∈ rules, ∀ a : SignalAddr, a.ref ∈ r.condition.refs → a ∈ S)
    {mem mem' : MemoryMap} (h : Set.EqOn mem.bitAt mem'.bitAt S) :
    tickRules rules mem = tickRules rules mem' ∧
      Set.EqOn (imageAfter rules mem).bitAt (imageAfter rules mem').bitAt
        (S ∪ { a | ∃ r ∈ rules, r.output = a.ref }) := by
  induction rules generalizing mem mem' S with
  | nil => exact ⟨rfl, by simpa [imageAfter] using h⟩
  | cons r rest ih =>
    obtain ⟨ht, hw⟩ := Rule.eqOn_written (hvalid r List.mem_cons_self)
      (hreads r List.mem_cons_self) h
    obtain ⟨hticks, himage⟩ := ih (fun s hs => hvalid s (List.mem_cons_of_mem _ hs))
      (fun s hs a ha => .inl (hreads s (List.mem_cons_of_mem _ hs) a ha)) hw
    refine ⟨by rw [tickRules, tickRules, ht, hticks], himage.mono ?_⟩
    rintro a (ha | ⟨s, hs, ha⟩)
    · exact .inl (.inl ha)
    · rcases List.mem_cons.mp hs with rfl | hs
      · exact .inl (.inr ha)
      · exact .inr ⟨s, hs, ha⟩

theorem refs_tickRules (rules : List Rule) (mem : MemoryMap) :
    (tickRules rules mem).map (fun r => (r.condition.refs, r.output)) =
      rules.map fun r => (r.condition.refs, r.output) := by
  induction rules generalizing mem with
  | nil => rfl
  | cons r rest ih => simpa [tickRules, Rule.tick, LogicNode.refs_tick] using ih (r.written mem)

namespace LogicProgram

theorem after_refs (p : LogicProgram) (env : Nat → MemoryMap → MemoryMap) (mem : MemoryMap) (n : Nat) :
    (after env p mem n).1.rules.map (fun r => (r.condition.refs, r.output)) =
      p.rules.map fun r => (r.condition.refs, r.output) := by
  induction n with
  | zero => rfl
  | succ n ih => exact (refs_tickRules _ _).trans ih

theorem reads_of_refs_eq {p q : LogicProgram}
    (h : q.rules.map (fun r => (r.condition.refs, r.output)) =
      p.rules.map fun r => (r.condition.refs, r.output)) :
    q.readSet = p.readSet ∧ q.outputSet = p.outputSet := by
  have hreads : ∀ p : LogicProgram, p.readSet =
      { a | ∃ x ∈ p.rules.map (fun r => (r.condition.refs, r.output)), a.ref ∈ x.1 } := fun p => by
    ext a
    simp [readSet]
  have houtputs : ∀ p : LogicProgram, p.outputSet =
      { a | ∃ x ∈ p.rules.map (fun r => (r.condition.refs, r.output)), x.2 = a.ref } := fun p => by
    ext a
    simp [outputSet]
  rw [hreads q, hreads p, houtputs q, houtputs p, h]
  exact ⟨rfl, rfl⟩

/-- As long as the images of two runs agree on the bits that are read, the two
program objects stay the same object. -/
theorem after_agrees {p : LogicProgram} (hp : p.Valid) {env env' : Nat → MemoryMap → MemoryMap}
    {mem mem' : MemoryMap} {n : Nat}
    (h : ∀ k < n, Set.EqOn (env k (after env p mem k).2).bitAt (env' k (after env' p mem' k).2).bitAt
      p.readSet) :
    (after env p mem n).1 = (after env' p mem' n).1 ∧ ∀ k < n,
      Set.EqOn (after env p mem (k + 1)).2.bitAt (after env' p mem' (k + 1)).2.bitAt
        (p.readSet ∪ p.outputSet) := by
  induction n with
  | zero => exact ⟨rfl, fun k hk => absurd hk (Nat.not_lt_zero k)⟩
  | succ n ih =>
    obtain ⟨hsame, hbefore⟩ := ih fun k hk => h k (Nat.lt_succ_of_lt hk)
    have hv := after_valid hp env mem n
    obtain ⟨hreads, houtputs⟩ := reads_of_refs_eq (after_refs p env mem n)
    have hinside : ∀ r ∈ (after env p mem n).1.rules, ∀ a : SignalAddr, a.ref ∈ r.condition.refs →
        a ∈ p.readSet := fun r hr a ha => hreads ▸ ⟨r, hr, ha⟩
    obtain ⟨hticks, himage⟩ := eqOn_imageAfter hv hinside (h n (Nat.lt_succ_self n))
    refine ⟨?_, fun k hk => ?_⟩
    · show LogicProgram.mk _ = LogicProgram.mk _
      rw [hticks, hsame]
    · rcases Nat.lt_succ_iff_lt_or_eq.mp hk with hlt | rfl
      · exact hbefore k hlt
      · rw [← houtputs]
        show Set.EqOn (imageAfter _ _).bitAt (imageAfter (after env' p mem' k).1.rules _).bitAt _
        rw [← hsame]
        exact himage

/-- Two runs whose images agree on the bits that conditions read, whenever a
call starts, agree after each call on these bits and on all output bits, and
every timer has the same count in both. -/
theorem reads_determine_run {doc : Json} {period : Int64} {prog : LogicProgram}
    (hprog : fromJson doc period = .ok prog) (env env' : Nat → MemoryMap → MemoryMap)
    (mem mem' : MemoryMap) (n : Nat)
    (h : ∀ k < n, ∀ p m p' m', prog.scan env mem k = .ok (p, m) →
      prog.scan env' mem' k = .ok (p', m') →
      Set.EqOn (env k m).bitAt (env' k m').bitAt prog.readSet) :
    ∀ k < n, ∃ p m m', prog.scan env mem (k + 1) = .ok (p, m) ∧
      prog.scan env' mem' (k + 1) = .ok (p, m') ∧
      Set.EqOn m.bitAt m'.bitAt (prog.readSet ∪ prog.outputSet) := by
  intro k hk
  have hvalid := valid_of_fromJson hprog
  have hagree : ∀ i < k + 1, Set.EqOn (env i (after env prog mem i).2).bitAt
      (env' i (after env' prog mem' i).2).bitAt prog.readSet := fun i hi =>
    h i (by omega) _ _ _ _ (scan_eq hvalid env mem i) (scan_eq hvalid env' mem' i)
  obtain ⟨hsame, himages⟩ := after_agrees hvalid hagree
  refine ⟨(after env prog mem (k + 1)).1, (after env prog mem (k + 1)).2,
    (after env' prog mem' (k + 1)).2, scan_eq hvalid env mem (k + 1), ?_,
    himages k (Nat.lt_succ_self k)⟩
  rw [hsame]
  exact scan_eq hvalid env' mem' (k + 1)

def unreadBit : SignalAddr := ⟨.memory, ⟨0, getSize_pos .memory⟩, 0⟩

theorem readSet_sharedOutput {a : SignalAddr} (h : a ∈ (ofSpecs sharedOutputRules 100).readSet) :
    a.area = .input := by
  have hrefs : ∀ r ∈ (ofSpecs sharedOutputRules 100).rules, ∀ ref ∈ r.condition.refs,
      ref.area = .input := by decide
  obtain ⟨r, hr, ha⟩ := h
  exact hrefs r hr a.ref ha

theorem reads_determine_run_unreadBit :
    ∃ p m m', (ofSpecs sharedOutputRules 100).scan (fun _ _ => {}) {} 3 = .ok (p, m) ∧
      (ofSpecs sharedOutputRules 100).scan
        (fun _ _ => ({} : MemoryMap).setBitAt unreadBit true) {} 3 = .ok (p, m') ∧
      Set.EqOn m.bitAt m'.bitAt ((ofSpecs sharedOutputRules 100).readSet ∪
        (ofSpecs sharedOutputRules 100).outputSet) := by
  have hdoc := fromJson_of_denotes 100 (denotes_canonicalDocument sharedOutputRules)
  refine reads_determine_run hdoc _ _ {} {} 3 (fun k _ p m p' m' _ _ a ha => ?_) 2 (by decide)
  have hne : a ≠ unreadBit := fun he => by
    have harea := readSet_sharedOutput ha
    rw [he] at harea
    cases harea
  show ({} : MemoryMap).bitAt a = (({} : MemoryMap).setBitAt unreadBit true).bitAt a
  rw [MemoryMap.bitAt_setBitAt, if_neg hne]

end LogicProgram

end Openaslc
