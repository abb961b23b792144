import Openaslc.ProgramMeaning
import Openaslc.RuntimeInterleaving

/-! The cycles of a program from the swap that brought it in to the next swap:
they leave what its document means, whatever other threads parse meanwhile. -/

namespace Openaslc

def ScanThread.program : ScanThread → Option Nat
  | .idle => none
  | .running program _ => program

namespace System

/-! ### Images that cycles find -/

def Event.copies (s : System) : Event → List MemoryMap
  | .copyCurrent => [s.mem]
  | _ => []

theorem append_copies (s : System) {e : Event} (he : e ≠ .copyCurrent) (found : List MemoryMap) :
    found ++ e.copies s = found := by
  cases e with
  | copyCurrent => exact absurd rfl he
  | _ => exact List.append_nil found

/-- The image at each copy step of a run. -/
def copied : System → List Event → List MemoryMap :=
  Machine.observed step fun s e => e.copies s

theorem copied_concat {s m t : System} {es : List Event} {e : Event} (hrun : run s es = some m)
    (hstep : m.step e = some t) : copied s (es ++ [e]) = copied s es ++ e.copies m :=
  Machine.observed_concat hrun hstep

/-! ### Objects that only one thread knows -/

/-- Every address in use is that of an object. -/
structure Known (s : System) : Prop where
  parsed : ∀ thread a, s.parsed thread = some a → a < s.runtime.objects.length
  scan : ∀ a, s.scan.program = some a → a < s.runtime.objects.length

/-- The object that `thread` has built and not swapped in yet. -/
structure Held (thread : Nat) (p : LogicProgram) (a : Nat) (s : System) : Prop where
  parsed : s.parsed thread = some a
  object : s.runtime.object a = p
  current : s.runtime.current ≠ some a
  scan : s.scan.program ≠ some a
  alone : ∀ other, other ≠ thread → s.parsed other ≠ some a

theorem swap_eq {s s' : System} {thread : Nat} (h : s.step (.swap thread) = some s') :
    ∃ a hlt, s.parsed thread = some a ∧ s' = { s with
      parsed := Function.update s.parsed thread none
      runtime := s.runtime.reload (some a) hlt } := by
  simp only [step] at h
  split at h
  · next a ha =>
    obtain ⟨hlt, rfl⟩ := install_eq h
    exact ⟨a, hlt, ha, rfl⟩
  · cases h

theorem parse_eq {s : System} {thread : Nat} {doc : Json} {p : LogicProgram}
    (h : LogicProgram.fromJson doc s.runtime.period = .ok p) : s.parse thread doc = { s with
      runtime := s.runtime.allocate p
      parsed := Function.update s.parsed thread (some s.runtime.objects.length) } := by
  rw [System.parse, h]

theorem parsed_parse_ne (s : System) {thread other : Nat} (h : other ≠ thread) (doc : Json) :
    (s.parse thread doc).parsed other = s.parsed other := by
  rw [System.parse]
  split <;> exact Function.update_of_ne h _ _

theorem endCycle_eq {s s' : System} (h : s.step .endCycle = some s') :
    s' = { s with scan := .idle } ∧
      ∀ a i, s.scan = .running (some a) i → i = (s.runtime.object a).rules.length := by
  simp only [step, endCycle] at h
  split at h
  · next a i hscan =>
    split at h
    · next hlen =>
      refine ⟨(Option.some.inj h).symm, fun b j hb => ?_⟩
      obtain ⟨rfl, rfl⟩ : a = b ∧ i = j := by simpa [hscan] using hb
      exact hlen
    · cases h
  · next i hscan =>
    refine ⟨(Option.some.inj h).symm, fun b j hb => ?_⟩
    rw [hscan] at hb
    cases hb
  · cases h

theorem copyCurrent_eq {s s' : System} (h : s.step .copyCurrent = some s') :
    s.scan = .idle ∧ s' = { s with scan := .running s.runtime.current 0 } := by
  simp only [step] at h
  split at h
  · next hscan => exact ⟨hscan, (Option.some.inj h).symm⟩
  · cases h

theorem rewrite_eq {s s' : System} {f : MemoryMap → MemoryMap} (h : s.step (.rewrite f) = some s') :
    s.scan = .idle ∧ s' = { s with mem := f s.mem } := by
  simp only [step] at h
  split at h
  · next hscan => exact ⟨hscan, (Option.some.inj h).symm⟩
  · cases h

theorem Known.step {s s' : System} {e : Event} (h : s.Known) (hs : s.step e = some s') :
    s'.Known := by
  cases e with
  | copyCurrent =>
    obtain ⟨_, rfl⟩ := copyCurrent_eq hs
    exact ⟨h.parsed, fun a ha => s.runtime.live a ha⟩
  | rule =>
    obtain ⟨a, i, rule, rule', mem, hscan, _, _, rfl⟩ := ruleStep_eq hs
    refine ⟨fun thread b hb => ?_, fun b hb => ?_⟩
    · rw [LogicRuntime.length_store]
      exact h.parsed thread b hb
    · rw [LogicRuntime.length_store]
      have hprogram : s.scan.program = some b := by rw [hscan]; exact hb
      exact h.scan b hprogram
  | endCycle =>
    obtain ⟨rfl, _⟩ := endCycle_eq hs
    exact ⟨h.parsed, by simp [ScanThread.program]⟩
  | rewrite f =>
    obtain ⟨_, rfl⟩ := rewrite_eq hs
    exact ⟨h.parsed, h.scan⟩
  | parse thread doc =>
    obtain rfl := Option.some.inj hs
    have hout := Outside.parse s thread doc
    refine ⟨fun other b hb => ?_, fun b hb => ?_⟩
    · by_cases ho : other = thread
      · subst ho
        cases hdoc : LogicProgram.fromJson doc s.runtime.period with
        | error e => simp [System.parse, hdoc] at hb
        | ok p =>
          rw [parse_eq hdoc] at hb ⊢
          obtain rfl : s.runtime.objects.length = b := by simpa using hb
          simp
      · rw [parsed_parse_ne s ho] at hb
        exact Nat.lt_of_lt_of_le (h.parsed other b hb) hout.length
    · rw [hout.scan] at hb
      exact Nat.lt_of_lt_of_le (h.scan b hb) hout.length
  | swap thread =>
    obtain ⟨a, _, _, rfl⟩ := swap_eq hs
    refine ⟨fun other b hb => ?_, h.scan⟩
    by_cases ho : other = thread
    · subst ho
      simp at hb
    · have hbefore : s.parsed other = some b := by simpa [ho] using hb
      exact h.parsed other b hbefore
  | reload program =>
    obtain ⟨_, rfl⟩ := install_eq hs
    exact ⟨h.parsed, h.scan⟩

theorem parsed_step {s s' : System} {thread : Nat} {e : Event} (hparse : ∀ doc, e ≠ .parse thread doc)
    (hswap : e ≠ .swap thread) (hs : s.step e = some s') : s'.parsed thread = s.parsed thread := by
  cases e with
  | copyCurrent =>
    obtain ⟨_, rfl⟩ := copyCurrent_eq hs
    rfl
  | rule =>
    obtain ⟨_, _, _, _, _, _, _, _, rfl⟩ := ruleStep_eq hs
    rfl
  | endCycle =>
    obtain ⟨rfl, _⟩ := endCycle_eq hs
    rfl
  | rewrite f =>
    obtain ⟨_, rfl⟩ := rewrite_eq hs
    rfl
  | parse other doc =>
    obtain rfl := Option.some.inj hs
    exact parsed_parse_ne s (fun ht => hparse doc (by rw [ht])) doc
  | swap other =>
    obtain ⟨_, _, _, rfl⟩ := swap_eq hs
    have hother : thread ≠ other := fun ht => hswap (by rw [ht])
    exact Function.update_of_ne hother _ _
  | reload program =>
    obtain ⟨_, rfl⟩ := install_eq hs
    rfl

theorem Known.held {s : System} (h : s.Known) {thread : Nat} {doc : Json} {p : LogicProgram}
    (hdoc : LogicProgram.fromJson doc s.runtime.period = .ok p) :
    Held thread p s.runtime.objects.length (s.parse thread doc) := by
  rw [parse_eq hdoc]
  refine ⟨by simp, by simp, fun hc => ?_, fun hc => ?_, fun other ho hc => ?_⟩
  · exact Nat.lt_irrefl _ (s.runtime.live _ hc)
  · exact Nat.lt_irrefl _ (h.scan _ hc)
  · have hbefore : s.parsed other = some s.runtime.objects.length := by simpa [ho] using hc
    exact Nat.lt_irrefl _ (h.parsed other _ hbefore)

/-- What other threads do leaves the object alone, whatever other objects they
reload: no pointer to it is theirs. -/
theorem Held.step {s s' : System} {thread a : Nat} {p : LogicProgram} {e : Event}
    (h : Held thread p a s) (hk : s.Known) (hreload : e ≠ .reload (some a))
    (hparse : ∀ doc, e ≠ .parse thread doc) (hswap : e ≠ .swap thread) (hs : s.step e = some s') :
    Held thread p a s' := by
  have hlt : a < s.runtime.objects.length := hk.parsed thread a h.parsed
  have hparsed : s'.parsed thread = some a := (parsed_step hparse hswap hs).trans h.parsed
  cases e with
  | copyCurrent =>
    obtain ⟨_, rfl⟩ := copyCurrent_eq hs
    exact ⟨hparsed, h.object, h.current, h.current, h.alone⟩
  | rule =>
    obtain ⟨b, i, rule, rule', mem, hscan, _, _, rfl⟩ := ruleStep_eq hs
    have hne : a ≠ b := by
      intro hab
      apply h.scan
      rw [hscan, hab]
      rfl
    refine ⟨hparsed, ?_, h.current, fun hb => hne (Option.some.inj hb).symm, h.alone⟩
    rw [LogicRuntime.object_store_ne _ hne]
    exact h.object
  | endCycle =>
    obtain ⟨rfl, _⟩ := endCycle_eq hs
    exact ⟨hparsed, h.object, h.current, by simp [ScanThread.program], h.alone⟩
  | rewrite f =>
    obtain ⟨_, rfl⟩ := rewrite_eq hs
    exact ⟨hparsed, h.object, h.current, h.scan, h.alone⟩
  | parse other doc =>
    obtain rfl := Option.some.inj hs
    have hout := Outside.parse s other doc
    have hcurrent := current_step hs
    refine ⟨hparsed, ?_, ?_, ?_, fun third hthird hc => ?_⟩
    · rw [hout.object a hlt]
      exact h.object
    · rw [hcurrent]
      exact h.current
    · rw [hout.scan]
      exact h.scan
    · by_cases ho : third = other
      · -- the other thread's new object lies behind all others
        subst ho
        cases hdoc : LogicProgram.fromJson doc s.runtime.period with
        | error e => simp [System.parse, hdoc] at hc
        | ok q =>
          rw [parse_eq hdoc] at hc
          obtain rfl : s.runtime.objects.length = a := by simpa using hc
          exact Nat.lt_irrefl _ hlt
      · rw [parsed_parse_ne s ho] at hc
        exact h.alone third hthird hc
  | swap other =>
    obtain ⟨b, _, hb, rfl⟩ := swap_eq hs
    have hother : thread ≠ other := fun ht => hswap (by rw [ht])
    have hne : b ≠ a := fun hab => h.alone other (Ne.symm hother) (hab ▸ hb)
    refine ⟨hparsed, h.object, fun hc => hne (Option.some.inj hc), h.scan, fun third hthird hc => ?_⟩
    by_cases ho : third = other
    · subst ho
      simp at hc
    · have hbefore : s.parsed third = some a := by simpa [ho] using hc
      exact h.alone third hthird hbefore
  | reload program =>
    obtain ⟨_, rfl⟩ := install_eq hs
    have hcurrent : program ≠ some a := fun hp => hreload (by rw [hp])
    exact ⟨hparsed, h.object, hcurrent, h.scan, h.alone⟩

/-! ### The cycles of one program -/

section Cycles

variable (rules : List RuleSpec) (period : Int64)

/-- The image that rule `j` finds in cycle `n`, as the document means it. -/
def expected (found : List MemoryMap) : Nat → Nat → MemoryMap :=
  meaning period.toInt.toNat rules fun k => found.getD k {}

/-- Rule `j` with the counts of `n` cycles. -/
def expectedRule (found : List MemoryMap) (n j : Nat) : Option Rule :=
  rules[j]?.map fun r => r.counted period.toUInt64 period.toInt.toNat (expected rules period found j) n

/-- The scan thread is in none of the program's cycles. -/
structure Resting (a : Nat) (found : List MemoryMap) (s : System) : Prop where
  scan : s.scan.program ≠ some a
  earlier : found ≠ [] → s.scan = .idle
  rules : ∀ j, (s.runtime.object a).rules[j]? = expectedRule rules period found found.length j

/-- The first `i` rules have run in cycle `n`, which is under way. -/
structure Cycling (a n i : Nat) (found : List MemoryMap) (s : System) : Prop where
  scan : s.scan = .running (some a) i
  length : found.length = n + 1
  bound : i ≤ rules.length
  mem : s.mem = expected rules period found i n
  rules : ∀ j, (s.runtime.object a).rules[j]? =
    expectedRule rules period found (if j < i then n + 1 else n) j

structure Computes (a : Nat) (found : List MemoryMap) (s : System) : Prop where
  current : s.runtime.current = some a
  phase : Resting rules period a found s ∨ ∃ n i, Cycling rules period a n i found s

end Cycles

variable {rules : List RuleSpec} {period : Int64} {a : Nat} {found : List MemoryMap} {s s' : System}

theorem expected_concat {n : Nat} (hn : n < found.length) (mem : MemoryMap) (j : Nat) :
    expected rules period (found ++ [mem]) j n = expected rules period found j n := by
  apply causal_meaning
  intro k hk
  simp only [List.getD_eq_getElem?_getD]
  rw [List.getElem?_append_left (Nat.lt_of_le_of_lt hk hn)]

theorem expected_last (mem : MemoryMap) :
    expected rules period (found ++ [mem]) 0 found.length = mem := by
  simp [expected, meaning]

theorem expectedRule_concat (mem : MemoryMap) (j : Nat) :
    expectedRule rules period (found ++ [mem]) found.length j =
      expectedRule rules period found found.length j := by
  have hcounts : Condition.streaks period.toInt.toNat (expected rules period (found ++ [mem]) j)
      found.length = Condition.streaks period.toInt.toNat (expected rules period found j)
      found.length := Condition.streaks_congr fun k hk => expected_concat hk mem j
  simp only [expectedRule, RuleSpec.counted, hcounts]

theorem expectedRule_isSome (rules : List RuleSpec) (period : Int64) (found : List MemoryMap)
    (n j : Nat) : (expectedRule rules period found n j).isSome ↔ j < rules.length := by
  simp [expectedRule]

theorem computes_of_fresh (hcurrent : s.runtime.current = some a) (hscan : s.scan.program ≠ some a)
    (hobject : s.runtime.object a = LogicProgram.ofSpecs rules period) :
    Computes rules period a [] s := by
  refine ⟨hcurrent, .inl ⟨hscan, fun h => absurd rfl h, fun j => ?_⟩⟩
  rw [hobject, LogicProgram.ofSpecs, List.getElem?_map]
  rfl

theorem Resting.congr (h : Resting rules period a found s) (hscan : s'.scan = s.scan)
    (hobject : s'.runtime.object a = s.runtime.object a) : Resting rules period a found s' := by
  refine ⟨?_, fun hfound => ?_, fun j => ?_⟩
  · rw [hscan]
    exact h.scan
  · rw [hscan]
    exact h.earlier hfound
  · rw [hobject]
    exact h.rules j

theorem Cycling.congr {n i : Nat} (h : Cycling rules period a n i found s) (hscan : s'.scan = s.scan)
    (hmem : s'.mem = s.mem) (hobject : s'.runtime.object a = s.runtime.object a) :
    Cycling rules period a n i found s' := by
  refine ⟨hscan.trans h.scan, h.length, h.bound, hmem.trans h.mem, fun j => ?_⟩
  rw [hobject]
  exact h.rules j

theorem Resting.copy (h : Resting rules period a found s) (hcurrent : s.runtime.current = some a) :
    Cycling rules period a found.length 0 (found ++ [s.mem])
      { s with scan := .running s.runtime.current 0 } := by
  refine ⟨by rw [hcurrent], by simp, Nat.zero_le _, (expected_last s.mem).symm, fun j => ?_⟩
  rw [if_neg (Nat.not_lt_zero j), expectedRule_concat]
  exact h.rules j

theorem Resting.rule (h : Resting rules period a found s) (hs : s.ruleStep = some s') :
    Resting rules period a found s' ∧ found = [] := by
  obtain ⟨b, i, rule, rule', mem, hscan, _, _, rfl⟩ := ruleStep_eq hs
  have hne : a ≠ b := by
    intro hab
    apply h.scan
    rw [hscan, hab]
    rfl
  have hfound : found = [] := by
    by_contra hno
    have hidle := h.earlier hno
    rw [hscan] at hidle
    cases hidle
  refine ⟨⟨fun hb => hne (Option.some.inj hb).symm, fun hno => absurd hfound hno, fun j => ?_⟩,
    hfound⟩
  rw [LogicRuntime.object_store_ne _ hne]
  exact h.rules j

theorem Cycling.rule {n i : Nat} (h : Cycling rules period a n i found s)
    (hlt : a < s.runtime.objects.length) (hpos : 1 ≤ period.toInt)
    (hbound : found.length * period.toInt.toNat < 2 ^ 64) (hs : s.ruleStep = some s') :
    Cycling rules period a n (i + 1) found s' := by
  obtain ⟨b, k, rule, rule', mem, hscan, hrule, hexec, rfl⟩ := ruleStep_eq hs
  obtain ⟨rfl, rfl⟩ : a = b ∧ i = k := by simpa [h.scan] using hscan
  have hi := h.rules i
  rw [hrule, if_neg (Nat.lt_irrefl i)] at hi
  have hlength : i < rules.length := by
    rw [← expectedRule_isSome rules period found n i, ← hi]
    rfl
  have hr : rules[i]? = some rules[i] := List.getElem?_eq_getElem hlength
  have hrun : rule = rules[i].counted period.toUInt64 period.toInt.toNat
      (expected rules period found i) n := by
    rw [expectedRule, hr] at hi
    exact Option.some.inj hi
  have hcycles : (n + 1) * period.toInt.toNat < 2 ^ 64 := by rwa [← h.length]
  have hcounted := RuleSpec.counted_execute (r := rules[i]) (toNat_toUInt64 (by omega : 0 ≤ period.toInt))
    (by omega : 1 ≤ period.toInt.toNat) hcycles (expected rules period found i)
  rw [hrun, h.mem, hcounted] at hexec
  obtain ⟨rfl, rfl⟩ := Prod.mk.inj (Except.ok.inj hexec)
  refine ⟨rfl, h.length, hlength, ?_, fun j => ?_⟩
  · rw [expected, meaning_succ hr]
  · rw [LogicRuntime.object_store_self _ hlt, List.getElem?_set]
    by_cases hj : i = j
    · subst hj
      have hsize : i < (s.runtime.object a).rules.length := (List.getElem?_eq_some_iff.mp hrule).1
      rw [if_pos rfl, if_pos hsize, if_pos (Nat.lt_succ_self i), expectedRule, hr]
      rfl
    · rw [if_neg hj, h.rules j]
      have hsame : j < i ↔ j < i + 1 := by omega
      simp only [hsame]

theorem Cycling.finish {n i : Nat} (h : Cycling rules period a n i found s)
    (hs : s.step .endCycle = some s') : Resting rules period a found s' ∧ i = rules.length := by
  obtain ⟨rfl, hlen⟩ := endCycle_eq hs
  have hall := hlen a i h.scan
  have hlast : rules.length ≤ i := by
    by_contra hlt
    have hi := h.rules i
    rw [hall, List.getElem?_eq_none (Nat.le_refl _), ← hall] at hi
    have hsome := (expectedRule_isSome rules period found (if i < i then n + 1 else n) i).mpr
      (Nat.not_le.mp hlt)
    rw [← hi] at hsome
    cases hsome
  refine ⟨⟨by simp [ScanThread.program], fun _ => rfl, fun j => ?_⟩, Nat.le_antisymm h.bound hlast⟩
  rw [h.rules j, h.length]
  by_cases hj : j < i
  · rw [if_pos hj]
  · have hnone : rules[j]? = none := List.getElem?_eq_none (by omega)
    simp only [expectedRule, hnone, Option.map_none]

theorem Computes.outside (h : Computes rules period a found s) (hout : s.Outside s')
    (hcurrent : s'.runtime.current = s.runtime.current) : Computes rules period a found s' := by
  have hobject := hout.object a (s.runtime.live a h.current)
  refine ⟨hcurrent.trans h.current, ?_⟩
  obtain hrest | ⟨n, i, hcycle⟩ := h.phase
  · exact .inl (hrest.congr hout.scan hobject)
  · exact .inr ⟨n, i, hcycle.congr hout.scan hout.mem hobject⟩

theorem Computes.step (h : Computes rules period a found s) (hpos : 1 ≤ period.toInt) {e : Event}
    (he : ∀ t, e.installed t = none) (hs : s.step e = some s')
    (hbound : (found ++ e.copies s).length * period.toInt.toNat < 2 ^ 64) :
    Computes rules period a (found ++ e.copies s) s' := by
  have hcurrent : s'.runtime.current = s.runtime.current := by
    rw [current_step hs, he s]
    rfl
  have hlt : a < s.runtime.objects.length := s.runtime.live a h.current
  cases e with
  | copyCurrent =>
    obtain ⟨hidle, rfl⟩ := copyCurrent_eq hs
    refine ⟨h.current, .inr ⟨found.length, 0, ?_⟩⟩
    obtain hrest | ⟨n, i, hcycle⟩ := h.phase
    · exact hrest.copy h.current
    · have hscan := hcycle.scan
      rw [hidle] at hscan
      cases hscan
  | rule =>
    rw [append_copies s (by simp)] at hbound ⊢
    refine ⟨hcurrent.trans h.current, ?_⟩
    obtain hrest | ⟨n, i, hcycle⟩ := h.phase
    · exact .inl (hrest.rule hs).1
    · exact .inr ⟨n, i + 1, hcycle.rule hlt hpos hbound hs⟩
  | endCycle =>
    rw [append_copies s (by simp)]
    refine ⟨hcurrent.trans h.current, .inl ?_⟩
    obtain hrest | ⟨n, i, hcycle⟩ := h.phase
    · obtain ⟨rfl, _⟩ := endCycle_eq hs
      exact ⟨by simp [ScanThread.program], fun _ => rfl, hrest.rules⟩
    · exact (hcycle.finish hs).1
  | rewrite f =>
    obtain ⟨hidle, rfl⟩ := rewrite_eq hs
    rw [append_copies s (by simp)]
    refine ⟨h.current, ?_⟩
    obtain hrest | ⟨n, i, hcycle⟩ := h.phase
    · exact .inl (hrest.congr rfl rfl)
    · have hscan := hcycle.scan
      rw [hidle] at hscan
      cases hscan
  | parse thread doc =>
    obtain rfl := Option.some.inj hs
    rw [append_copies s (by simp)]
    exact h.outside (.parse s thread doc) hcurrent
  | swap thread => exact absurd (he s) (by simp [Event.installed])
  | reload program => exact absurd (he s) (by simp [Event.installed])

theorem computes_run {s₀ : System} (h : Computes rules period a [] s₀) (hpos : 1 ≤ period.toInt)
    {events : List Event} (hno : ∀ e ∈ events, ∀ t, e.installed t = none)
    (hrun : run s₀ events = some s)
    (hbound : (copied s₀ events).length * period.toInt.toNat < 2 ^ 64) :
    Computes rules period a (copied s₀ events) s := by
  induction events using List.reverseRecOn generalizing s with
  | nil =>
    obtain rfl : s₀ = s := by simpa using hrun
    exact h
  | append_singleton es e ih =>
    obtain ⟨m, hm, hlast⟩ := Machine.run_concat.mp hrun
    rw [copied_concat hm hlast] at hbound ⊢
    have hless : (copied s₀ es).length * period.toInt.toNat ≤
        (copied s₀ es ++ e.copies m).length * period.toInt.toNat := by
      apply Nat.mul_le_mul_right
      rw [List.length_append]
      omega
    have hfirst := ih (fun e' he' => hno e' (List.mem_append_left _ he')) hm (by omega)
    exact hfirst.step hpos (hno e (by simp)) hlast hbound

/-! ### From the parse of a document to the next swap -/

/-- No thread has parsed anything yet, and no cycle is under way. -/
structure Quiet (s : System) : Prop where
  scan : s.scan = .idle
  parsed : ∀ thread, s.parsed thread = none

theorem Quiet.known (h : Quiet s) : s.Known :=
  ⟨fun thread a ha => by simp [h.parsed] at ha, fun a ha => by simp [h.scan, ScanThread.program] at ha⟩

theorem known_run {s₀ : System} (h : s₀.Known) {events : List Event}
    (hrun : run s₀ events = some s) : s.Known := by
  have hall : ∀ e ∈ events, e ∈ events := fun _ he => he
  exact Machine.run_invariant Known (fun _ _ _ hk _ hst => hk.step hst) h hall hrun

theorem period_run {s₀ : System} {events : List Event} (hrun : run s₀ events = some s) :
    s.runtime.period = s₀.runtime.period := by
  have hall : ∀ e ∈ events, e ∈ events := fun _ he => he
  apply Machine.run_invariant (fun t => t.runtime.period = s₀.runtime.period) _ rfl hall hrun
  intro t e t' ht _ hstep
  rw [← ht]
  cases e with
  | copyCurrent =>
    obtain ⟨_, rfl⟩ := copyCurrent_eq hstep
    rfl
  | rule =>
    obtain ⟨_, _, _, _, _, _, _, _, rfl⟩ := ruleStep_eq hstep
    rfl
  | endCycle =>
    obtain ⟨rfl, _⟩ := endCycle_eq hstep
    rfl
  | rewrite f =>
    obtain ⟨_, rfl⟩ := rewrite_eq hstep
    rfl
  | parse thread doc =>
    obtain rfl := Option.some.inj hstep
    rw [System.parse]
    split <;> rfl
  | swap thread =>
    obtain ⟨_, _, _, rfl⟩ := swap_eq hstep
    rfl
  | reload program =>
    obtain ⟨_, rfl⟩ := install_eq hstep
    rfl

/-- A thread that parses a document and swaps later brings in the program of
that document as it was built. Meanwhile the object is its own: `reload` gets
others. -/
theorem swapped_fresh {s₀ : System} (h : s₀.Known) {thread : Nat} {doc : Json} {mid : List Event}
    (hreload : .reload (some s₀.runtime.objects.length) ∉ mid)
    (hparse : ∀ e ∈ mid, ∀ doc', e ≠ .parse thread doc') (hswap : .swap thread ∉ mid)
    (hrun : run s₀ (.parse thread doc :: (mid ++ [.swap thread])) = some s) :
    ∃ rules a, DocumentDenotes doc rules ∧ Computes rules s₀.runtime.period a [] s := by
  obtain ⟨s₁, hs₁, hrest⟩ := Machine.run_cons.mp hrun
  obtain ⟨s₂, hmid, hlast⟩ := Machine.run_concat.mp hrest
  obtain rfl := Option.some.inj hs₁
  obtain ⟨a, hlt, hparsed, rfl⟩ := swap_eq hlast
  have hothers : ∀ e ∈ mid, e ≠ .reload (some s₀.runtime.objects.length) ∧
      (∀ doc', e ≠ .parse thread doc') ∧ e ≠ .swap thread :=
    fun e he => ⟨fun heq => hreload (heq ▸ he), hparse e he, fun heq => hswap (heq ▸ he)⟩
  cases hdoc : LogicProgram.fromJson doc s₀.runtime.period with
  | error e =>
    -- nothing was parsed, and so nothing is there to swap
    have hnone : (s₀.parse thread doc).parsed thread = none := by simp [System.parse, hdoc]
    have hkeep : s₂.parsed thread = none := by
      apply Machine.run_invariant (fun t => t.parsed thread = none) _ hnone hothers hmid
      intro t e t' ht he hst
      exact (parsed_step he.2.1 he.2.2 hst).trans ht
    rw [hkeep] at hparsed
    cases hparsed
  | ok p =>
    have hheld : s₂.Known ∧ Held thread p s₀.runtime.objects.length s₂ := by
      apply Machine.run_invariant (fun t => t.Known ∧ Held thread p s₀.runtime.objects.length t) _
        ⟨h.step hs₁, h.held hdoc⟩ hothers hmid
      intro t e t' ht he hst
      exact ⟨ht.1.step hst, ht.2.step ht.1 he.1 he.2.1 he.2.2 hst⟩
    obtain rfl : s₀.runtime.objects.length = a := Option.some.inj (hheld.2.parsed.symm.trans hparsed)
    obtain ⟨rules, hd, rfl⟩ := specs_of_fromJson hdoc
    exact ⟨rules, _, hd, computes_of_fresh rfl hheld.2.scan hheld.2.object⟩

/-- In any interleaving, with any reloads of other objects: while the program
that a thread parsed and swapped in stays current, rule `i` of its cycle `n`
finds the image that the document means after the first `i` rules, and the cycle
ends on what the document means. -/
theorem swapped_program_computes {s₀ t : System} (hquiet : s₀.Quiet)
    (hpos : 1 ≤ s₀.runtime.period.toInt) {before mid rest : List Event} {thread : Nat} {doc : Json}
    (hrun : run s₀ (before ++ .parse thread doc :: (mid ++ .swap thread :: rest)) = some t)
    (hreload : ∀ s, run s₀ before = some s → .reload (some s.runtime.objects.length) ∉ mid)
    (hmid : ∀ e ∈ mid, e ≠ .swap thread ∧ ∀ doc', e ≠ .parse thread doc')
    (hrest : ∀ e ∈ rest, ∀ s, e.installed s = none) :
    ∃ s₁ rules, run s₀ (before ++ .parse thread doc :: (mid ++ [.swap thread])) = some s₁ ∧
      DocumentDenotes doc rules ∧
      ((copied s₁ rest).length * s₀.runtime.period.toInt.toNat < 2 ^ 64 → copied s₁ rest ≠ [] →
        ∀ program i, t.scan = .running program i → i ≤ rules.length ∧
          t.mem = expected rules s₀.runtime.period (copied s₁ rest) i
            ((copied s₁ rest).length - 1) ∧
          (t.step .endCycle ≠ none → i = rules.length)) := by
  obtain ⟨s, hbefore, hafter⟩ := Machine.run_append.mp hrun
  have hsplit : .parse thread doc :: (mid ++ .swap thread :: rest) =
      .parse thread doc :: (mid ++ [.swap thread]) ++ rest := by simp
  rw [hsplit] at hafter
  obtain ⟨s₁, hfirst, hlater⟩ := Machine.run_append.mp hafter
  have hknown : s.Known := known_run hquiet.known hbefore
  have hperiod := period_run hbefore
  obtain ⟨rules, a, hd, hfresh⟩ := swapped_fresh hknown (hreload s hbefore)
    (fun e he => (hmid e he).2) (fun hmem => (hmid _ hmem).1 rfl) hfirst
  rw [hperiod] at hfresh
  refine ⟨s₁, rules, Machine.run_append.mpr ⟨s, hbefore, hfirst⟩, hd,
    fun hbound hcopied program i hscan => ?_⟩
  obtain ⟨_, hrest' | ⟨n, k, hcycle⟩⟩ := computes_run hfresh hpos hrest hlater hbound
  · have hidle := hrest'.earlier hcopied
    rw [hscan] at hidle
    cases hidle
  · obtain ⟨rfl, rfl⟩ : program = some a ∧ i = k := by simpa [hscan] using hcycle.scan
    have hn : (copied s₁ rest).length - 1 = n := by
      rw [hcycle.length]
      rfl
    rw [hn]
    refine ⟨hcycle.bound, hcycle.mem, fun hend => ?_⟩
    obtain ⟨t', ht'⟩ := Option.ne_none_iff_exists'.mp hend
    exact (hcycle.finish ht').2

def vacant : System := ⟨.empty 100, {}, .idle, fun _ => none⟩

def sharedSwapped : System where
  runtime := ((LogicRuntime.empty 100).allocate (.ofSpecs sharedOutputRules 100)).reload (some 0)
    (LogicRuntime.lt_length_allocate (.empty 100) _)
  mem := {}
  scan := .idle
  parsed := Function.update (Function.update (fun _ => none) 0 (some 0)) 0 none

theorem run_sharedSwapped : run vacant
    (.parse 0 (canonicalDocument sharedOutputRules) :: ([] ++ [.swap 0])) = some sharedSwapped := by
  have hdoc := fromJson_of_denotes 100 (denotes_canonicalDocument sharedOutputRules)
  have hperiod : vacant.runtime.period = 100 := rfl
  have hparse : vacant.step (.parse 0 (canonicalDocument sharedOutputRules)) = some
      { runtime := (LogicRuntime.empty 100).allocate (.ofSpecs sharedOutputRules 100)
        mem := {}
        scan := .idle
        parsed := Function.update (fun _ => none) 0 (some 0) } := by
    simp only [step, System.parse, hperiod, hdoc]
    rfl
  exact Machine.run_cons.mpr ⟨_, hparse, rfl⟩

def secondCycle : List Event := [.copyCurrent, .rule, .rule, .endCycle, .copyCurrent, .rule]

/-- The scan thread is at rule `i` of the program at address `a`. -/
def atRule (s : System) (a i : Nat) : Bool :=
  match s.scan with
  | .running (some program) next => program == a && next == i
  | _ => false

theorem scan_of_atRule {s : System} {a i : Nat} (h : s.atRule a i = true) :
    s.scan = .running (some a) i := by
  rw [atRule] at h
  split at h
  · next program next hscan =>
    obtain ⟨hprogram, hnext⟩ := Bool.and_eq_true_iff.mp h
    rw [hscan, eq_of_beq hprogram, eq_of_beq hnext]
  · cases h

theorem swapped_program_computes_secondCycle : ∃ t, run sharedSwapped secondCycle = some t ∧
    ∃ rules, DocumentDenotes (canonicalDocument sharedOutputRules) rules ∧
      t.mem = expected rules 100 (copied sharedSwapped secondCycle) 1 1 := by
  have hsome : (run sharedSwapped secondCycle).isSome := by decide +kernel
  obtain ⟨t, ht⟩ := Option.isSome_iff_exists.mp hsome
  have hscan : ((run sharedSwapped secondCycle).map fun t => t.atRule 0 1) = some true := by
    decide +kernel
  have hlength : (copied sharedSwapped secondCycle).length = 2 := by decide +kernel
  have hrun : run vacant ([] ++ .parse 0 (canonicalDocument sharedOutputRules) ::
      ([] ++ .swap 0 :: secondCycle)) = some t := by
    show run vacant ((.parse 0 (canonicalDocument sharedOutputRules) :: ([] ++ [.swap 0])) ++
      secondCycle) = some t
    exact Machine.run_append.mpr ⟨_, run_sharedSwapped, ht⟩
  obtain ⟨s₁, rules, hs₁, hd, hall⟩ := swapped_program_computes ⟨rfl, fun _ => rfl⟩ (by decide) hrun
    (by simp) (by simp) (by simp [secondCycle, Event.installed])
  obtain rfl : sharedSwapped = s₁ := Option.some.inj (run_sharedSwapped.symm.trans hs₁)
  rw [hlength] at hall
  have hrunning : t.scan = .running (some 0) 1 := by
    rw [ht] at hscan
    exact scan_of_atRule (Option.some.inj hscan)
  have hne : copied sharedSwapped secondCycle ≠ [] := List.ne_nil_of_length_pos (by omega)
  obtain ⟨_, hmem, _⟩ := hall (by decide) hne _ _ hrunning
  exact ⟨t, ht, rules, hd, hmem⟩

end System

end Openaslc
