import Openaslc.LogicRuntime
import Openaslc.Machine

/-! The scan thread and the threads that reload, step by step. A cycle copies
`current_`, runs one rule at a time, and ends; parsing and swapping happen at
any time in between. -/

namespace Openaslc

inductive ScanThread
  | idle
  | running (program : Option Nat) (next : Nat)

structure System where
  runtime : LogicRuntime
  mem : MemoryMap
  scan : ScanThread
  parsed : Nat → Option Nat

namespace System

inductive Event
  | copyCurrent
  | rule
  | endCycle
  | rewrite (f : MemoryMap → MemoryMap)
  | parse (thread : Nat) (doc : Json)
  | swap (thread : Nat)
  | reload (program : Option Nat)

/-- The swap step, enabled for a pointer to an existing object or a null one. -/
def install (s : System) (program : Option Nat) : Option System :=
  if h : ∀ a ∈ program, a < s.runtime.objects.length then
    some { s with runtime := s.runtime.reload program h }
  else none

/-- One step of the loop over the rules of the copied program. An exception
would leave the scan thread and end the process, so no step follows it. -/
def ruleStep (s : System) : Option System :=
  match s.scan with
  | .running (some a) i =>
    match (s.runtime.object a).rules[i]? with
    | some rule =>
      match rule.execute s.mem with
      | .ok (rule, mem) => some
        { s with
          runtime := s.runtime.store a ⟨(s.runtime.object a).rules.set i rule⟩
          mem := mem
          scan := .running (some a) (i + 1) }
      | .error _ => none
    | none => none
  | _ => none

def endCycle (s : System) : Option System :=
  match s.scan with
  | .running (some a) i =>
    if i = (s.runtime.object a).rules.length then some { s with scan := .idle } else none
  | .running none _ => some { s with scan := .idle }
  | .idle => none

/-- `reload_from_json` up to its swap; a document that does not parse leaves
nothing to swap. -/
def parse (s : System) (thread : Nat) (doc : Json) : System :=
  match LogicProgram.fromJson doc s.runtime.period with
  | .ok p =>
    { s with
      runtime := s.runtime.allocate p
      parsed := Function.update s.parsed thread (some s.runtime.objects.length) }
  | .error _ => { s with parsed := Function.update s.parsed thread none }

def step (s : System) : Event → Option System
  | .copyCurrent =>
    match s.scan with
    | .idle => some { s with scan := .running s.runtime.current 0 }
    | .running _ _ => none
  | .rule => s.ruleStep
  | .endCycle => s.endCycle
  | .rewrite f =>
    match s.scan with
    | .idle => some { s with mem := f s.mem }
    | .running _ _ => none
  | .parse thread doc => some (s.parse thread doc)
  | .swap thread =>
    match s.parsed thread with
    | some a => { s with parsed := Function.update s.parsed thread none }.install (some a)
    | none => none
  | .reload program => s.install program

abbrev run : System → List Event → Option System := Machine.run step

/-! ### What a step does to the program that is being run -/

theorem install_eq {s s' : System} {program : Option Nat} (h : s.install program = some s') :
    ∃ hlt, s' = { s with runtime := s.runtime.reload program hlt } := by
  rw [install] at h
  split at h
  · next hlt => exact ⟨hlt, (Option.some.inj h).symm⟩
  · cases h

theorem ruleStep_eq {s s' : System} (h : s.ruleStep = some s') :
    ∃ a i rule rule' mem, s.scan = .running (some a) i ∧
      (s.runtime.object a).rules[i]? = some rule ∧ rule.execute s.mem = .ok (rule', mem) ∧
      s' = { s with
        runtime := s.runtime.store a ⟨(s.runtime.object a).rules.set i rule'⟩
        mem := mem
        scan := .running (some a) (i + 1) } := by
  rw [ruleStep] at h
  split at h
  · next a i hscan =>
    split at h
    · next rule hrule =>
      split at h
      · next rule' mem hexec =>
        exact ⟨a, i, rule, rule', mem, hscan, hrule, hexec, (Option.some.inj h).symm⟩
      · cases h
    · cases h
  · cases h

/-- The part of a state that a thread other than the scan thread may change
while a cycle runs: it may add objects and swap `current_`. -/
structure Outside (s s' : System) : Prop where
  mem : s'.mem = s.mem
  scan : s'.scan = s.scan
  length : s.runtime.objects.length ≤ s'.runtime.objects.length
  object : ∀ a < s.runtime.objects.length, s'.runtime.object a = s.runtime.object a

theorem Outside.install {s s' : System} {program : Option Nat} (h : s.install program = some s') :
    s.Outside s' := by
  obtain ⟨_, rfl⟩ := install_eq h
  exact ⟨rfl, rfl, Nat.le_refl _, fun _ _ => rfl⟩

theorem Outside.parse (s : System) (thread : Nat) (doc : Json) :
    s.Outside (s.parse thread doc) := by
  rw [System.parse]
  split
  · next p _ =>
    exact ⟨rfl, rfl, by simp, fun a ha => s.runtime.object_allocate_of_lt ha p⟩
  · exact ⟨rfl, rfl, Nat.le_refl _, fun _ _ => rfl⟩

theorem step_cases {s s' : System} {e : Event} {program : Option Nat} {i : Nat}
    (hscan : s.scan = .running program i) (he : e ≠ .endCycle)
    (h : s.step e = some s') : s.ruleStep = some s' ∨ s.Outside s' := by
  cases e with
  | copyCurrent => simp [step, hscan] at h
  | rule => exact .inl h
  | endCycle => exact absurd rfl he
  | rewrite f => simp [step, hscan] at h
  | parse thread doc =>
    obtain rfl := Option.some.inj h
    exact .inr (.parse s thread doc)
  | swap thread =>
    simp only [step] at h
    split at h
    · have ho := Outside.install h
      exact .inr ⟨ho.mem, ho.scan, ho.length, ho.object⟩
    · cases h
  | reload program => exact .inr (.install h)

/-! ### A cycle from its copy step to its end -/

/-- The first `i` rules of `p` have run on the image of the copy step, and the
object holds them with their new timers and the other rules untouched. -/
structure Progress (s₁ s : System) (a i : Nat) : Prop where
  scan : s.scan = .running (some a) i
  ran : ∃ rules, executeRules ((s₁.runtime.object a).rules.take i) s₁.mem = .ok (rules, s.mem) ∧
    (s.runtime.object a).rules = rules ++ (s₁.runtime.object a).rules.drop i
  bound : i ≤ (s₁.runtime.object a).rules.length
  length : s₁.runtime.objects.length ≤ s.runtime.objects.length
  object : ∀ b < s₁.runtime.objects.length, b ≠ a → s.runtime.object b = s₁.runtime.object b

theorem executeRules_length {rules rules' : List Rule} {mem mem' : MemoryMap}
    (h : executeRules rules mem = .ok (rules', mem')) : rules'.length = rules.length := by
  induction rules generalizing rules' mem mem' with
  | nil =>
    cases h
    rfl
  | cons r rest ih =>
    rw [executeRules] at h
    cases hr : r.execute mem with
    | error e => simp [hr, bind, Except.bind] at h
    | ok ran =>
      cases hrest : executeRules rest ran.2 with
      | error e => simp [hr, hrest, bind, Except.bind] at h
      | ok rest' =>
        simp only [hr, hrest, bind, Except.bind, pure, Except.pure, Except.ok.injEq,
          Prod.mk.injEq] at h
        obtain ⟨rfl, _⟩ := h
        simp [ih hrest]

theorem executeRules_take_succ {rules done : List Rule} {i : Nat} {rule rule' : Rule}
    {mem m mem' : MemoryMap} (hi : rules[i]? = some rule)
    (hdone : executeRules (rules.take i) mem = .ok (done, m))
    (hrule : rule.execute m = .ok (rule', mem')) :
    executeRules (rules.take (i + 1)) mem = .ok (done ++ [rule'], mem') := by
  rw [List.take_add_one, hi, executeRules_append, hdone]
  simp [executeRules, hrule, bind, Except.bind, pure, Except.pure]

theorem Progress.rule {s₁ s s' : System} {a i : Nat} (h : Progress s₁ s a i)
    (ha : a < s₁.runtime.objects.length) (hs : s.ruleStep = some s') :
    Progress s₁ s' a (i + 1) := by
  obtain ⟨b, j, rule, rule', mem, hscan, hrule, hexec, rfl⟩ := ruleStep_eq hs
  obtain ⟨rfl, rfl⟩ : a = b ∧ i = j := by simpa [h.scan] using hscan
  obtain ⟨rules, hrun, hobj⟩ := h.ran
  have hlen := executeRules_length hrun
  rw [List.length_take, Nat.min_eq_left h.bound] at hlen
  have hrule₁ : (s₁.runtime.object a).rules[i]? = some rule := by
    rw [hobj, List.getElem?_append_right (by omega), hlen, Nat.sub_self,
      List.getElem?_drop, Nat.add_zero] at hrule
    exact hrule
  have hlt : i < (s₁.runtime.object a).rules.length := (List.getElem?_eq_some_iff.mp hrule₁).1
  have hdrop : (s₁.runtime.object a).rules.drop i =
      rule :: (s₁.runtime.object a).rules.drop (i + 1) := by
    rw [List.drop_eq_getElem_cons hlt, (List.getElem?_eq_some_iff.mp hrule₁).2]
  have hlen' := h.length
  refine ⟨rfl, ⟨rules ++ [rule'], executeRules_take_succ hrule₁ hrun hexec, ?_⟩, hlt, by simpa,
    fun b hb hne => ?_⟩
  · rw [LogicRuntime.object_store_self _ (by omega), hobj, hdrop]
    simp [hlen]
  · rw [LogicRuntime.object_store_ne _ hne]
    exact h.object b hb hne

theorem Progress.outside {s₁ s s' : System} {a i : Nat} (h : Progress s₁ s a i)
    (ha : a < s₁.runtime.objects.length) (hs : s.Outside s') : Progress s₁ s' a i := by
  have hlen := h.length
  have hobj := hs.object a (by omega)
  refine ⟨hs.scan.trans h.scan, ?_, h.bound, hlen.trans hs.length, fun b hb hne => ?_⟩
  · rw [hs.mem, hobj]
    exact h.ran
  · rw [hs.object b (by omega)]
    exact h.object b hb hne

theorem Progress.step {s₁ s s' : System} {a : Nat} {e : Event} (h : ∃ i, Progress s₁ s a i)
    (ha : a < s₁.runtime.objects.length) (he : e ≠ .endCycle) (hs : s.step e = some s') :
    ∃ i, Progress s₁ s' a i := by
  obtain ⟨i, hi⟩ := h
  rcases step_cases hi.scan he hs with hrule | hout
  · exact ⟨i + 1, hi.rule ha hrule⟩
  · exact ⟨i, hi.outside ha hout⟩

structure Skipping (s₁ s : System) : Prop where
  scan : s.scan = .running none 0
  mem : s.mem = s₁.mem
  length : s₁.runtime.objects.length ≤ s.runtime.objects.length
  object : ∀ b < s₁.runtime.objects.length, s.runtime.object b = s₁.runtime.object b

theorem Skipping.step {s₁ s s' : System} {e : Event} (h : Skipping s₁ s) (he : e ≠ .endCycle)
    (hs : s.step e = some s') : Skipping s₁ s' := by
  rcases step_cases h.scan he hs with hrule | hout
  · obtain ⟨a, i, _, _, _, hscan, _⟩ := ruleStep_eq hrule
    simp [h.scan] at hscan
  · have hlen := h.length
    refine ⟨hout.scan.trans h.scan, hout.mem.trans h.mem, hlen.trans hout.length, fun b hb => ?_⟩
    rw [hout.object b (by omega)]
    exact h.object b hb

theorem Progress.finished {s₁ s : System} {a : Nat}
    (h : Progress s₁ s a (s₁.runtime.object a).rules.length) (hc : s₁.runtime.current = some a)
    (ha : a < s₁.runtime.objects.length) :
    ∃ rt, s₁.runtime.executeCycle s₁.mem = .ok (rt, s.mem) ∧
      ∀ b < s₁.runtime.objects.length, s.runtime.object b = rt.object b := by
  obtain ⟨rules, hrun, hobj⟩ := h.ran
  rw [List.take_length] at hrun
  rw [List.drop_length, List.append_nil] at hobj
  refine ⟨s₁.runtime.store a ⟨rules⟩, ?_, fun b hb => ?_⟩
  · rw [LogicRuntime.executeCycle, hc]
    simp only [LogicProgram.execute, hrun]
    rfl
  · by_cases hba : b = a
    · subst hba
      rw [LogicRuntime.object_store_self _ ha, ← hobj]
    · rw [LogicRuntime.object_store_ne _ hba]
      exact h.object b hb hba

/-- A cycle that ends has run the program current at its copy step, whole and
alone, whatever was parsed and swapped in between. -/
theorem cycle_eq_executeCycle {s₁ s₂ : System} {during : List Event}
    (hd : .endCycle ∉ during) (h : run s₁ (.copyCurrent :: during ++ [.endCycle]) = some s₂) :
    ∃ rt, s₁.runtime.executeCycle s₁.mem = .ok (rt, s₂.mem) ∧
      ∀ a < s₁.runtime.objects.length, s₂.runtime.object a = rt.object a := by
  obtain ⟨s', hbody, hend⟩ := Machine.run_append.mp h
  obtain ⟨s₁', hcopy, hduring⟩ := Machine.run_cons.mp hbody
  have hend' := Machine.run_singleton.mp hend
  have hne : ∀ e ∈ during, e ≠ Event.endCycle := fun e he heq => hd (heq ▸ he)
  have hs₁' : s₁' = { s₁ with scan := .running s₁.runtime.current 0 } := by
    simp only [step] at hcopy
    split at hcopy
    · exact (Option.some.inj hcopy).symm
    · cases hcopy
  subst hs₁'
  cases hc : s₁.runtime.current with
  | none =>
    have hstart : Skipping s₁ { s₁ with scan := .running s₁.runtime.current 0 } := by
      rw [hc]
      exact ⟨rfl, rfl, Nat.le_refl _, fun _ _ => rfl⟩
    have hskip : Skipping s₁ s' :=
      Machine.run_invariant (Skipping s₁) (fun _ _ _ hs he hst => hs.step he hst) hstart hne hduring
    have hs₂ : s₂ = { s' with scan := .idle } := by
      simpa [step, endCycle, hskip.scan, eq_comm] using hend'
    subst hs₂
    exact ⟨s₁.runtime, by simp only [LogicRuntime.executeCycle, hc, hskip.mem]; rfl, hskip.object⟩
  | some a =>
    have ha : a < s₁.runtime.objects.length := s₁.runtime.live a hc
    have hstart : Progress s₁ { s₁ with scan := .running s₁.runtime.current 0 } a 0 := by
      rw [hc]
      exact ⟨rfl, ⟨[], rfl, rfl⟩, Nat.zero_le _, Nat.le_refl _, fun _ _ _ => rfl⟩
    obtain ⟨i, hi⟩ : ∃ i, Progress s₁ s' a i :=
      Machine.run_invariant (fun s => ∃ i, Progress s₁ s a i)
        (fun _ _ _ hs he hst => Progress.step hs ha he hst) ⟨0, hstart⟩ hne hduring
    have hlen : i = (s'.runtime.object a).rules.length ∧ s₂ = { s' with scan := .idle } := by
      simpa [step, endCycle, hi.scan, eq_comm] using hend'
    obtain ⟨hfull, rfl⟩ := hlen
    obtain ⟨rules, hrun, hobj⟩ := hi.ran
    have hrl := executeRules_length hrun
    have hi' : i = (s₁.runtime.object a).rules.length := by
      have hb := hi.bound
      rw [List.length_take, Nat.min_eq_left hb] at hrl
      rw [hobj, List.length_append, hrl, List.length_drop] at hfull
      omega
    subst hi'
    obtain ⟨rt, hexec, hobjects⟩ := hi.finished hc ha
    exact ⟨rt, hexec, hobjects⟩

/-! ### Which program is current -/

def Event.installed (s : System) : Event → Option (Option Nat)
  | .swap thread => some (s.parsed thread)
  | .reload program => some program
  | _ => none

theorem current_step {s s' : System} {e : Event} (h : s.step e = some s') :
    s'.runtime.current = (e.installed s).getD s.runtime.current := by
  cases e with
  | copyCurrent =>
    simp only [step] at h
    split at h
    · cases h; rfl
    · cases h
  | rule =>
    obtain ⟨a, i, rule, rule', mem, _, _, _, rfl⟩ := ruleStep_eq h
    rfl
  | endCycle =>
    simp only [step, endCycle] at h
    split at h
    · split at h
      · cases h; rfl
      · cases h
    · cases h; rfl
    · cases h
  | rewrite f =>
    simp only [step] at h
    split at h
    · cases h; rfl
    · cases h
  | parse thread doc =>
    obtain rfl := Option.some.inj h
    rw [System.parse]
    split <;> rfl
  | swap thread =>
    simp only [step] at h
    split at h
    · next a ha =>
      obtain ⟨_, rfl⟩ := install_eq h
      simp [Event.installed, LogicRuntime.reload, ha]
    · cases h
  | reload program =>
    obtain ⟨_, rfl⟩ := install_eq h
    rfl

theorem current_run {s s' : System} {es : List Event} (hes : ∀ e ∈ es, ∀ t, e.installed t = none)
    (h : run s es = some s') : s'.runtime.current = s.runtime.current := by
  refine Machine.run_invariant (fun t => t.runtime.current = s.runtime.current)
    (fun t e t' ht he hst => ?_) rfl hes h
  rw [current_step hst, he t]
  exact ht

/-- In any interleaving: every completed cycle has the effect of an
uninterrupted `execute_cycle` at its copy step; `current_` is what the last swap
step installed; a document that does not parse leaves everything but its own
thread alone, which then has nothing to swap. -/
theorem interleaving_runs_whole_programs {s₀ s : System} {events : List Event}
    (h : run s₀ events = some s) :
    (∀ before during after,
      events = before ++ (.copyCurrent :: during ++ [.endCycle]) ++ after → .endCycle ∉ during →
      ∃ s₁ s₂ rt, run s₀ before = some s₁ ∧
        run s₁ (.copyCurrent :: during ++ [.endCycle]) = some s₂ ∧
        s₁.runtime.executeCycle s₁.mem = .ok (rt, s₂.mem) ∧
        ∀ a < s₁.runtime.objects.length, s₂.runtime.object a = rt.object a) ∧
    (∀ before e after program, events = before ++ e :: after →
      (∀ e' ∈ after, ∀ t, e'.installed t = none) →
      ∀ s₁, run s₀ before = some s₁ → e.installed s₁ = some program →
        s.runtime.current = program) ∧
    ∀ thread doc error, LogicProgram.fromJson doc s.runtime.period = .error error →
      ∃ s', s.step (.parse thread doc) = some s' ∧ s'.runtime = s.runtime ∧ s'.mem = s.mem ∧
        s'.scan = s.scan ∧ s'.step (.swap thread) = none := by
  refine ⟨?_, ?_, ?_⟩
  · rintro before during after rfl hd
    obtain ⟨s₂, hto, _⟩ := Machine.run_append.mp h
    obtain ⟨s₁, hbefore, hcycle⟩ := Machine.run_append.mp hto
    obtain ⟨rt, hexec, hobj⟩ := cycle_eq_executeCycle hd hcycle
    exact ⟨s₁, s₂, rt, hbefore, hcycle, hexec, hobj⟩
  · rintro before e after program rfl hafter s₁ hbefore hin
    obtain ⟨t, ht, hrest⟩ := Machine.run_append.mp h
    obtain rfl : s₁ = t := Option.some.inj (hbefore.symm.trans ht)
    obtain ⟨s₂, he, hlast⟩ := Machine.run_cons.mp hrest
    rw [current_run hafter hlast, current_step he, hin]
    rfl
  · intro thread doc error herr
    refine ⟨_, rfl, ?_⟩
    simp [System.parse, herr, step]

/-- `%Q0.0 := %I0.0` and `%Q0.1 := TON(%Q0.0, 150)`, with an empty program
ready to replace them. -/
def beforeSwap : System where
  runtime :=
    { period := 100
      objects := [⟨[⟨"direct", ⟨none, .output, 0, 0⟩, .signalRefNode ⟨none, .input, 0, 0⟩⟩,
        ⟨"delayed", ⟨none, .output, 0, 1⟩,
          .tonTimerNode (.signalRefNode ⟨none, .output, 0, 0⟩) 150 100 0⟩]⟩, {}]
      current := some 0
      live := by decide }
  mem := {}
  scan := .idle
  parsed := fun _ => none

theorem interleaving_runs_whole_programs_swap :
    ∃ s rt, run beforeSwap [.copyCurrent, .rule, .reload (some 1), .rule, .endCycle] = some s ∧
      beforeSwap.runtime.executeCycle beforeSwap.mem = .ok (rt, s.mem) ∧
      s.runtime.current = some 1 := by
  have hsome : (run beforeSwap [.copyCurrent, .rule, .reload (some 1), .rule, .endCycle]).isSome := by
    decide +kernel
  obtain ⟨s, hs⟩ := Option.isSome_iff_exists.mp hsome
  obtain ⟨hcycle, hcurrent, _⟩ := interleaving_runs_whole_programs hs
  obtain ⟨s₁, s₂, rt, hs₁, hs₂, hexec, _⟩ :=
    hcycle [] [.rule, .reload (some 1), .rule] [] rfl (by simp)
  obtain rfl : beforeSwap = s₁ := Option.some.inj hs₁
  obtain rfl : s = s₂ := Option.some.inj (hs.symm.trans hs₂)
  have hsome' : (run beforeSwap [.copyCurrent, .rule]).isSome := by decide +kernel
  obtain ⟨t, ht⟩ := Option.isSome_iff_exists.mp hsome'
  exact ⟨s, rt, hs, hexec, hcurrent [.copyCurrent, .rule] (.reload (some 1)) [.rule, .endCycle]
    (some 1) rfl (by simp [Event.installed]) t ht rfl⟩

end System

end Openaslc
