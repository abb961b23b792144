import Openaslc.LogicGrammar

/-! What a scan cycle of an accepted document does to the image: it never
throws, and it writes the output bits of its rules and nothing else. -/

namespace Openaslc

theorem exists_last {α : Type} (P : α → Prop) {l : List α} (h : ∃ a ∈ l, P a) :
    ∃ j a, l[j]? = some a ∧ P a ∧ ∀ b ∈ l.drop (j + 1), ¬ P b := by
  induction l with
  | nil => simp at h
  | cons a l ih =>
    by_cases hl : ∃ b ∈ l, P b
    · obtain ⟨j, b, hj, hb, hrest⟩ := ih hl
      exact ⟨j + 1, b, by simpa using hj, hb, by simpa using hrest⟩
    · obtain ⟨b, hb, hp⟩ := h
      have hab : b = a := by
        rcases List.mem_cons.mp hb with he | hm
        · exact he
        · exact absurd ⟨b, hm, hp⟩ hl
      subst hab
      exact ⟨0, b, rfl, hp, fun c hc hpc => hl ⟨c, by simpa using hc, hpc⟩⟩

theorem valid_of_fromJson {doc : Json} {period : Int64} {prog : LogicProgram}
    (h : LogicProgram.fromJson doc period = .ok prog) : prog.Valid := by
  obtain ⟨rules, _, rfl⟩ := specs_of_fromJson h
  exact LogicProgram.valid_ofSpecs rules period

theorem output_of_map_eq {l l' : List Rule} (h : l.map Rule.output = l'.map Rule.output) {j : Nat}
    {r : Rule} (hr : l[j]? = some r) : ∃ r', l'[j]? = some r' ∧ r'.output = r.output := by
  have hj := congrArg (fun os => os[j]?) h
  simp only [List.getElem?_map, hr, Option.map_some] at hj
  cases hr' : l'[j]? with
  | none => simp [hr'] at hj
  | some r' => exact ⟨r', rfl, by simpa [hr'] using hj.symm⟩

theorem not_output_of_map_eq {l l' : List Rule} (h : l.map Rule.output = l'.map Rule.output)
    {ref : SignalRef} (hno : ∀ r ∈ l, r.output ≠ ref) : ∀ r ∈ l', r.output ≠ ref := by
  intro r hr he
  have hm : r.output ∈ l.map Rule.output := h ▸ List.mem_map_of_mem hr
  obtain ⟨s, hs, hse⟩ := List.mem_map.mp hm
  exact hno s hs (hse.trans he)

/-- After the call, each bit is the one before it, or the value computed by
the last rule that targets it. -/
theorem bitAt_after_call {p : LogicProgram} (h : p.Valid) (mem : MemoryMap) (a : SignalAddr) :
    ((∀ r ∈ p.rules, r.output ≠ a.ref) ∧ (imageAfter p.rules mem).bitAt a = mem.bitAt a) ∨
      ∃ j r value, p.rules[j]? = some r ∧ r.output = a.ref ∧
        (∀ s ∈ p.rules.drop (j + 1), s.output ≠ a.ref) ∧ p.computed mem j = .ok (some value) ∧
        (imageAfter p.rules mem).bitAt a = value := by
  by_cases hex : ∃ r ∈ p.rules, r.output = a.ref
  · obtain ⟨j, r, hr, ha, hlast⟩ := exists_last (fun r : Rule => r.output = a.ref) hex
    have hv := LogicProgram.computed_eq h mem hr
    have hb := imageAfter_bitAt_last h mem hr ha hlast
    exact .inr ⟨j, r, _, hr, ha, hlast, hv, hb⟩
  · have hno : ∀ r ∈ p.rules, r.output ≠ a.ref := fun r hr he => hex ⟨r, hr, he⟩
    exact .inl ⟨hno, imageAfter_bitAt_of_not_output h mem hno⟩

/-- Every call of every run returns. It leaves each bit of the image alone
unless some rule targets the bit, which then holds what the last such rule
computed; no rule targets %I. -/
theorem execute_safe {doc : Json} {period : Int64} {prog : LogicProgram}
    (h : LogicProgram.fromJson doc period = .ok prog) (env : Nat → MemoryMap → MemoryMap)
    (mem : MemoryMap) (n : Nat) :
    ∃ p m p' m', prog.scan env mem n = .ok (p, m) ∧ p.execute (env n m) = .ok (p', m') ∧
      (∀ r ∈ prog.rules, ∃ a : SignalAddr, r.output = a.ref ∧ a.area ≠ .input) ∧
      (∀ a : SignalAddr, a.area = .input → m'.bitAt a = (env n m).bitAt a) ∧
      ∀ a : SignalAddr,
        ((∀ r ∈ prog.rules, r.output ≠ a.ref) ∧ m'.bitAt a = (env n m).bitAt a) ∨
        ∃ j r value, prog.rules[j]? = some r ∧ r.output = a.ref ∧
          (∀ s ∈ prog.rules.drop (j + 1), s.output ≠ a.ref) ∧
          p.computed (env n m) j = .ok (some value) ∧ m'.bitAt a = value := by
  have hprog := valid_of_fromJson h
  have hscan := LogicProgram.scan_eq hprog env mem n
  have hvalid := LogicProgram.after_valid hprog env mem n
  have hout := prog.after_output env mem n
  generalize prog.after env mem n = pm at hscan hvalid hout
  obtain ⟨p, m⟩ := pm
  have hbit := bitAt_after_call hvalid (env n m)
  refine ⟨p, m, _, _, hscan, LogicProgram.execute_eq hvalid (env n m), fun r hr => (hprog r hr).2,
    fun a ha => ?_, fun a => ?_⟩
  · rcases hbit a with ⟨_, hsame⟩ | ⟨j, r, value, hr, hra, _⟩
    · exact hsame
    · obtain ⟨b, hb, hne⟩ := (hvalid r (List.mem_of_getElem? hr)).2
      have hab : a = b := SignalAddr.ref_injective (hra.symm.trans hb)
      exact absurd (hab ▸ ha) hne
  · rcases hbit a with ⟨hno, hsame⟩ | ⟨j, r, value, hr, hra, hlast, hv, hb⟩
    · exact .inl ⟨not_output_of_map_eq hout hno, hsame⟩
    · obtain ⟨r', hr', hro⟩ := output_of_map_eq hout hr
      have hdrop : (p.rules.drop (j + 1)).map Rule.output =
          (prog.rules.drop (j + 1)).map Rule.output := by
        rw [List.map_drop, List.map_drop, hout]
      exact .inr ⟨j, r', value, hr', hro.trans hra, not_output_of_map_eq hdrop hlast, hv, hb⟩

/-- Two rules on one bit: `%Q0.0 := %I0.0`, then `%Q0.0 := TON(%I0.0, 150)`. -/
def sharedOutputRules : List RuleSpec :=
  let input : SignalAddr := ⟨.input, ⟨0, getSize_pos .input⟩, 0⟩
  let output : SignalAddr := ⟨.output, ⟨0, getSize_pos .output⟩, 0⟩
  [⟨"direct", output, output_ne_input, .input input⟩,
    ⟨"delayed", output, output_ne_input, .tonTimer (.input input) 150⟩]

theorem execute_safe_sharedOutput :
    ∃ p m p' m', (LogicProgram.ofSpecs sharedOutputRules 100).scan (fun _ => id) {} 3 = .ok (p, m) ∧
      p.execute m = .ok (p', m') ∧
      ∀ a : SignalAddr, a.area = .input → m'.bitAt a = m.bitAt a := by
  have hdoc := fromJson_of_denotes 100 (denotes_canonicalDocument sharedOutputRules)
  obtain ⟨p, m, p', m', hs, he, _, hin, _⟩ := execute_safe hdoc (fun _ => id) {} 3
  exact ⟨p, m, p', m', hs, he, hin⟩

end Openaslc
