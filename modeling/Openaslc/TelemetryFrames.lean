import Openaslc.RuntimeInterleaving
import Openaslc.ScanSafety
import Openaslc.TelemetryServer

/-! The two snapshots of a frame among the steps of the scan thread. The areas
are copied one after the other, each under the lock of the image. -/

namespace Openaslc

/-! ### What leaves an area as it is -/

theorem storeRange_other {area other : MemoryArea} (h : other ≠ area) (data : List UInt8) (start : Nat)
    (mem : MemoryMap) : (MemM.storeRange area start data mem).mem.getAreaPtr other =
      mem.getAreaPtr other := by
  induction data generalizing start mem with
  | nil => rfl
  | cons byte rest ih =>
    by_cases hi : start < getSize area
    · have hstore : MemM.store area start byte mem =
          ⟨.ok (), mem.setByte area ⟨start, hi⟩ byte, [(area, start)]⟩ := dif_pos hi
      rw [MemM.storeRange, MemM.bind_ok hstore]
      simp only [ih]
      exact mem.getAreaPtr_setByte_ne h _ _
    · have hstore : MemM.store area start byte mem =
          ⟨.error .undefinedBehaviour, mem, [(area, start)]⟩ := dif_neg hi
      rw [MemM.storeRange, MemM.bind_error hstore]

theorem writeBytes_other {area other : MemoryArea} (h : other ≠ area) {offset : UInt64}
    {data : ByteVector} {mem mem' : MemoryMap}
    (hwrite : (writeBytes area offset data).exec mem = .ok ((), mem')) :
    mem'.getAreaPtr other = mem.getAreaPtr other := by
  obtain ⟨touched, hrun⟩ := MemM.exec_eq_ok.mp hwrite
  rw [writeBytes, validateBounds] at hrun
  split at hrun
  · simp [MemM.raise, MemM.bind_apply] at hrun
  · rw [MemM.bind_ok (MemM.pure_apply () mem)] at hrun
    have hmem : (MemM.storeRange area offset.toNat data.data mem).mem = mem' :=
      congrArg Outcome.mem hrun
    rw [← hmem]
    exact storeRange_other h _ _ mem

theorem Rule.written_input {r : Rule} (h : r.Valid) (mem : MemoryMap) :
    (r.written mem).getAreaPtr .input = mem.getAreaPtr .input := by
  obtain ⟨a, ha, harea⟩ := h.2
  rw [Rule.written_eq ha]
  exact mem.getAreaPtr_setByte_ne (Ne.symm harea) _ _

/-! ### The machine -/

/-- The system and one client of the telemetry server: `between` says that no
cycle has begun since the last one ended, and `taken` is the first snapshot of
a frame. -/
structure Telemetry where
  system : System
  between : Bool
  taken : Option (List UInt8)
  messages : List Json

namespace Telemetry

inductive Event
  | readInputs (offset : UInt64) (data : ByteVector)
  | run (e : System.Event)
  | snapshotInput
  | snapshotOutput

def start (period : Int64) (mem : MemoryMap) : Telemetry :=
  ⟨⟨.empty period, mem, .idle, fun _ => none⟩, true, none, []⟩

/-- The write of a driver, on the scan thread before the rules. -/
def readInputs (t : Telemetry) (offset : UInt64) (data : ByteVector) : Option Telemetry :=
  match t.system.scan with
  | .running _ _ => none
  | .idle =>
    match (writeBytes .input offset data).exec t.system.mem with
    | .ok (_, mem) => some { t with system := { t.system with mem }, between := false }
    | .error _ => none

def betweenAfter (between : Bool) : System.Event → Bool
  | .copyCurrent => false
  | .endCycle => true
  | _ => between

/-- Nothing but drivers and rules writes to the image. -/
def runStep (t : Telemetry) (e : System.Event) : Option Telemetry :=
  match e with
  | .rewrite _ => none
  | e => (t.system.step e).map fun system =>
    { t with system, between := betweenAfter t.between e }

def step (t : Telemetry) : Event → Option Telemetry
  | .readInputs offset data => t.readInputs offset data
  | .run e => t.runStep e
  | .snapshotInput =>
    match t.taken with
    | some _ => none
    | none => some { t with taken := some (areaSnapshot t.system.mem .input) }
  | .snapshotOutput =>
    match t.taken with
    | some input => some { t with
        taken := none
        messages := t.messages ++ [telemetryMessage (UInt64.ofNat t.messages.length) input
          (areaSnapshot t.system.mem .output)] }
    | none => none

abbrev run : Telemetry → List Event → Option Telemetry := Machine.run step

def Event.Writes (area : MemoryArea) : Event → Prop
  | .readInputs _ _ => area = .input
  | .run .rule => area ≠ .input
  | _ => False

def Event.Snapshots : Event → Prop
  | .snapshotInput => True
  | .snapshotOutput => True
  | _ => False

def Event.endsFrame : Event → Bool
  | .snapshotOutput => true
  | _ => false

def Sound (t : Telemetry) : Prop := ∀ p ∈ t.system.runtime.objects, p.Valid

structure Effect (t t' : Telemetry) (e : Event) : Prop where
  sound : t'.Sound
  same : ∀ area, ¬ e.Writes area → t'.system.mem.getAreaPtr area = t.system.mem.getAreaPtr area

/-! ### What a step does -/

theorem readInputs_eq {t t' : Telemetry} {offset : UInt64} {data : ByteVector}
    (hs : t.readInputs offset data = some t') :
    ∃ mem, (writeBytes .input offset data).exec t.system.mem = .ok ((), mem) ∧
      t' = { t with system := { t.system with mem }, between := false } := by
  rw [readInputs] at hs
  split at hs
  · cases hs
  · split at hs
    · next mem hwrite => exact ⟨mem, hwrite, (Option.some.inj hs).symm⟩
    · cases hs

theorem runStep_eq {t t' : Telemetry} {e : System.Event} (hs : t.runStep e = some t') :
    ∃ system, t.system.step e = some system ∧ (∀ f, e ≠ .rewrite f) ∧
      t' = { t with system, between := betweenAfter t.between e } := by
  cases e with
  | rewrite f => cases hs
  | _ =>
    simp only [runStep, Option.map_eq_some_iff] at hs
    obtain ⟨system, hstep, rfl⟩ := hs
    exact ⟨system, hstep, by simp, rfl⟩

theorem snapshotInput_eq {t t' : Telemetry} (hs : t.step .snapshotInput = some t') :
    t' = { t with taken := some (areaSnapshot t.system.mem .input) } := by
  simp only [step] at hs
  split at hs
  · cases hs
  · exact (Option.some.inj hs).symm

theorem snapshotOutput_eq {t t' : Telemetry} (hs : t.step .snapshotOutput = some t') :
    ∃ input, t.taken = some input ∧ t' = { t with
      taken := none
      messages := t.messages ++ [telemetryMessage (UInt64.ofNat t.messages.length) input
        (areaSnapshot t.system.mem .output)] } := by
  simp only [step] at hs
  split at hs
  · next input htaken => exact ⟨input, htaken, (Option.some.inj hs).symm⟩
  · cases hs

theorem Sound.object {t : Telemetry} (h : t.Sound) (a : Nat) : (t.system.runtime.object a).Valid := by
  by_cases ha : a < t.system.runtime.objects.length
  · have hobject : t.system.runtime.object a = t.system.runtime.objects[a] := by
      simp [LogicRuntime.object, List.getD_eq_getElem?_getD, ha]
    rw [hobject]
    exact h _ (List.getElem_mem ha)
  · have hobject : t.system.runtime.object a = {} := by
      simp [LogicRuntime.object, List.getD_eq_getElem?_getD, ha]
    simp [hobject, LogicProgram.Valid]

theorem effect_of_mem {t t' : Telemetry} {e : Event} (h : t'.Sound)
    (hmem : t'.system.mem = t.system.mem) : Effect t t' e :=
  ⟨h, fun _ _ => by rw [hmem]⟩

theorem effect_readInputs {t t' : Telemetry} {offset : UInt64} {data : ByteVector} (h : t.Sound)
    (hs : t.readInputs offset data = some t') : Effect t t' (.readInputs offset data) := by
  obtain ⟨mem, hwrite, rfl⟩ := readInputs_eq hs
  refine ⟨h, ?_⟩
  intro area hno
  exact writeBytes_other hno hwrite

theorem effect_rule {t : Telemetry} {system : System} {between : Bool} (h : t.Sound)
    (hs : t.system.ruleStep = some system) :
    Effect t { t with system, between } (.run .rule) := by
  obtain ⟨a, i, rule, rule', mem, _, hrule, hexec, rfl⟩ := System.ruleStep_eq hs
  have hvalid : rule.Valid := h.object a rule (List.mem_of_getElem? hrule)
  rw [Rule.execute_eq hvalid] at hexec
  obtain ⟨rfl, rfl⟩ : rule.tick t.system.mem = rule' ∧ rule.written t.system.mem = mem := by
    simpa using hexec
  refine ⟨?_, ?_⟩
  · intro p hp
    obtain hp | rfl := List.mem_or_eq_of_mem_set hp
    · exact h p hp
    · intro r hr
      obtain hr | rfl := List.mem_or_eq_of_mem_set hr
      · exact h.object a r hr
      · exact hvalid.tick t.system.mem
  · intro area hno
    obtain rfl : area = .input := not_not.mp hno
    exact Rule.written_input hvalid t.system.mem

theorem sound_parse {t : Telemetry} {between : Bool} (h : t.Sound) (thread : Nat) (doc : Json) :
    Sound { t with system := t.system.parse thread doc, between } := by
  intro p hp
  simp only [System.parse] at hp
  split at hp
  · next program hparse =>
    obtain hp | hp := List.mem_append.mp hp
    · exact h p hp
    · rw [List.mem_singleton.mp hp]
      exact valid_of_fromJson hparse
  · exact h p hp

theorem effect_install {t : Telemetry} {e : Event} {s system : System} {program : Option Nat}
    {between : Bool} (h : t.Sound) (hmem : s.mem = t.system.mem)
    (hobjects : s.runtime.objects = t.system.runtime.objects) (hs : s.install program = some system) :
    Effect t { t with system, between } e := by
  obtain ⟨_, rfl⟩ := System.install_eq hs
  apply effect_of_mem _ hmem
  intro p hp
  apply h p
  rw [← hobjects]
  exact hp

theorem effect_runStep {t t' : Telemetry} {e : System.Event} (h : t.Sound)
    (hs : t.runStep e = some t') : Effect t t' (.run e) := by
  obtain ⟨system, hstep, hno, rfl⟩ := runStep_eq hs
  cases e with
  | copyCurrent =>
    simp only [System.step] at hstep
    split at hstep
    · obtain rfl := Option.some.inj hstep
      exact effect_of_mem h rfl
    · cases hstep
  | rule => exact effect_rule h hstep
  | endCycle =>
    have hsame : system = { t.system with scan := .idle } := by
      simp only [System.step, System.endCycle] at hstep
      split at hstep
      · split at hstep
        · exact (Option.some.inj hstep).symm
        · cases hstep
      · exact (Option.some.inj hstep).symm
      · cases hstep
    subst hsame
    exact effect_of_mem h rfl
  | rewrite f => exact absurd rfl (hno f)
  | parse thread doc =>
    obtain rfl := Option.some.inj hstep
    exact effect_of_mem (sound_parse h thread doc) (System.Outside.parse _ thread doc).mem
  | swap thread =>
    simp only [System.step] at hstep
    split at hstep
    · exact effect_install (s := { t.system with parsed := Function.update t.system.parsed thread none })
        h rfl rfl hstep
    · cases hstep
  | reload program => exact effect_install h rfl rfl hstep

theorem effect_step {t t' : Telemetry} {e : Event} (h : t.Sound) (hs : t.step e = some t') :
    Effect t t' e := by
  cases e with
  | readInputs offset data => exact effect_readInputs h hs
  | run e => exact effect_runStep h hs
  | snapshotInput =>
    obtain rfl := snapshotInput_eq hs
    exact effect_of_mem h rfl
  | snapshotOutput =>
    obtain ⟨_, _, rfl⟩ := snapshotOutput_eq hs
    exact effect_of_mem h rfl

/-! ### Runs -/

theorem sound_start (period : Int64) (mem : MemoryMap) : (start period mem).Sound := by
  simp [Sound, start, LogicRuntime.empty]

theorem Sound.run {t t' : Telemetry} {events : List Event} (h : t.Sound)
    (hrun : t.run events = some t') : t'.Sound := by
  have hall : ∀ e ∈ events, e ∈ events := fun _ he => he
  apply Machine.run_invariant Sound _ h hall hrun
  intro s e s' hs _ hstep
  exact (effect_step hs hstep).sound

theorem area_run {t t' : Telemetry} {events : List Event} {area : MemoryArea} (h : t.Sound)
    (hno : ∀ e ∈ events, ¬ e.Writes area) (hrun : t.run events = some t') :
    t'.system.mem.getAreaPtr area = t.system.mem.getAreaPtr area := by
  have hkeep : t'.Sound ∧ t'.system.mem.getAreaPtr area = t.system.mem.getAreaPtr area := by
    apply Machine.run_invariant
      (fun s => s.Sound ∧ s.system.mem.getAreaPtr area = t.system.mem.getAreaPtr area)
      _ ⟨h, rfl⟩ hno hrun
    intro s e s' hs he hstep
    have heffect := effect_step hs.1 hstep
    exact ⟨heffect.sound, (heffect.same area he).trans hs.2⟩
  exact hkeep.2

/-- Of two moments of a run, one follows the other and no event of `P` lies
between them. -/
def NoneBetween (P : Event → Prop) (a b : List Event) : Prop :=
  ∃ d, (∀ e ∈ d, ¬ P e) ∧ (b = a ++ d ∨ a = b ++ d)

theorem same_of_noneBetween {t s s' : Telemetry} {area : MemoryArea} {a b : List Event}
    (h : t.Sound) (ha : t.run a = some s) (hb : t.run b = some s')
    (hab : NoneBetween (Event.Writes area) a b) :
    s.system.mem.getAreaPtr area = s'.system.mem.getAreaPtr area := by
  obtain ⟨d, hd, rfl | rfl⟩ := hab
  · obtain ⟨m, hm, hrest⟩ := Machine.run_append.mp hb
    obtain rfl : m = s := Option.some.inj (hm.symm.trans ha)
    exact (area_run (h.run hm) hd hrest).symm
  · obtain ⟨m, hm, hrest⟩ := Machine.run_append.mp ha
    obtain rfl : m = s' := Option.some.inj (hm.symm.trans hb)
    exact area_run (h.run hm) hd hrest

/-! ### The snapshots of a frame -/

theorem endsFrame_of_not_snapshots {e : Event} (h : ¬ e.Snapshots) : e.endsFrame = false := by
  cases e with
  | snapshotOutput => exact absurd trivial h
  | _ => rfl

/-- The first snapshot of the next frame: where in the run it was taken. -/
def Pending (t₀ : Telemetry) (events : List Event) (input : List UInt8) : Prop :=
  ∃ pre mid first, events = pre ++ .snapshotInput :: mid ∧ (∀ e ∈ mid, ¬ e.Snapshots) ∧
    t₀.run pre = some first ∧ input = areaSnapshot first.system.mem .input

/-- The `k`th frame and its two snapshots. The run splits at them into `pre`, in
which `k` frames end, `mid`, in which none begins or ends, and the rest. -/
structure Framed (t₀ : Telemetry) (events : List Event) (k : Nat) (message : Json)
    (pre mid : List Event) (first second : Telemetry) : Prop where
  split : ∃ post, events = pre ++ .snapshotInput :: (mid ++ .snapshotOutput :: post)
  before : pre.countP Event.endsFrame = k
  alone : ∀ e ∈ mid, ¬ e.Snapshots
  atFirst : t₀.run pre = some first
  atSecond : t₀.run (pre ++ .snapshotInput :: mid) = some second
  shown : message = telemetryMessage (UInt64.ofNat k) (areaSnapshot first.system.mem .input)
    (areaSnapshot second.system.mem .output)

theorem Pending.concat {t₀ : Telemetry} {events : List Event} {input : List UInt8}
    (h : Pending t₀ events input) {e : Event} (he : ¬ e.Snapshots) :
    Pending t₀ (events ++ [e]) input := by
  obtain ⟨pre, mid, first, rfl, hmid, hfirst, hinput⟩ := h
  refine ⟨pre, mid ++ [e], first, by simp, ?_, hfirst, hinput⟩
  intro e' he'
  obtain he' | he' := List.mem_append.mp he'
  · exact hmid e' he'
  · rwa [List.mem_singleton.mp he']

theorem Framed.concat {t₀ : Telemetry} {events : List Event} {k : Nat} {message : Json}
    {pre mid : List Event} {first second : Telemetry}
    (h : Framed t₀ events k message pre mid first second) (e : Event) :
    Framed t₀ (events ++ [e]) k message pre mid first second := by
  obtain ⟨post, hsplit⟩ := h.split
  exact ⟨⟨post ++ [e], by simp [hsplit]⟩, h.before, h.alone, h.atFirst, h.atSecond, h.shown⟩

structure Recorded (t₀ : Telemetry) (events : List Event) (t : Telemetry) : Prop where
  reached : t₀.run events = some t
  counted : t.messages.length = events.countP Event.endsFrame
  pending : ∀ input, t.taken = some input → Pending t₀ events input
  framed : ∀ k message, t.messages[k]? = some message →
    ∃ pre mid first second, Framed t₀ events k message pre mid first second

theorem Recorded.other {t₀ t t' : Telemetry} {events : List Event} {e : Event}
    (h : Recorded t₀ events t) (hs : t.step e = some t') (he : ¬ e.Snapshots)
    (hsame : t'.taken = t.taken ∧ t'.messages = t.messages) : Recorded t₀ (events ++ [e]) t' := by
  refine ⟨Machine.run_concat.mpr ⟨t, h.reached, hs⟩, ?_, ?_, ?_⟩
  · rw [hsame.2, h.counted, List.countP_append]
    simp [endsFrame_of_not_snapshots he]
  · intro input htaken
    rw [hsame.1] at htaken
    exact (h.pending input htaken).concat he
  · intro k message hk
    rw [hsame.2] at hk
    obtain ⟨pre, mid, first, second, hframed⟩ := h.framed k message hk
    exact ⟨pre, mid, first, second, hframed.concat e⟩

theorem Recorded.snapshotInput {t₀ t t' : Telemetry} {events : List Event}
    (h : Recorded t₀ events t) (hs : t.step .snapshotInput = some t') :
    Recorded t₀ (events ++ [.snapshotInput]) t' := by
  have hreached : t₀.run (events ++ [.snapshotInput]) = some t' :=
    Machine.run_concat.mpr ⟨t, h.reached, hs⟩
  obtain rfl := snapshotInput_eq hs
  have hcounted : t.messages.length = (events ++ [Event.snapshotInput]).countP Event.endsFrame := by
    rw [h.counted, List.countP_append]
    rfl
  refine ⟨hreached, hcounted, ?_, ?_⟩
  · intro input htaken
    obtain rfl := Option.some.inj htaken
    exact ⟨events, [], t, rfl, by simp, h.reached, rfl⟩
  · intro k message hk
    obtain ⟨pre, mid, first, second, hframed⟩ := h.framed k message hk
    exact ⟨pre, mid, first, second, hframed.concat _⟩

theorem Recorded.snapshotOutput {t₀ t t' : Telemetry} {events : List Event}
    (h : Recorded t₀ events t) (hs : t.step .snapshotOutput = some t') :
    Recorded t₀ (events ++ [.snapshotOutput]) t' := by
  have hreached : t₀.run (events ++ [.snapshotOutput]) = some t' :=
    Machine.run_concat.mpr ⟨t, h.reached, hs⟩
  obtain ⟨input, htaken, rfl⟩ := snapshotOutput_eq hs
  have hcounted : (t.messages ++ [telemetryMessage (UInt64.ofNat t.messages.length) input
      (areaSnapshot t.system.mem .output)]).length =
        (events ++ [Event.snapshotOutput]).countP Event.endsFrame := by
    rw [List.length_append, h.counted, List.countP_append]
    rfl
  refine ⟨hreached, hcounted, by simp, ?_⟩
  intro k message hk
  by_cases hlt : k < t.messages.length
  · rw [List.getElem?_append_left hlt] at hk
    obtain ⟨pre, mid, first, second, hframed⟩ := h.framed k message hk
    exact ⟨pre, mid, first, second, hframed.concat _⟩
  · have hlen : k < t.messages.length + 1 := by
      simpa using (List.getElem?_eq_some_iff.mp hk).1
    obtain rfl : k = t.messages.length := by omega
    obtain ⟨pre, mid, first, rfl, hmid, hfirst, hinput⟩ := h.pending input htaken
    have hshown : message = telemetryMessage (UInt64.ofNat t.messages.length)
        (areaSnapshot first.system.mem .input) (areaSnapshot t.system.mem .output) := by
      rw [List.getElem?_concat_length, hinput] at hk
      exact (Option.some.inj hk).symm
    have hsplit : pre ++ .snapshotInput :: mid ++ [.snapshotOutput] =
        pre ++ .snapshotInput :: (mid ++ .snapshotOutput :: []) := by
      rw [List.append_assoc, List.cons_append]
    have hbefore : pre.countP Event.endsFrame = t.messages.length := by
      have hnone : mid.countP Event.endsFrame = 0 := List.countP_eq_zero.mpr fun e he => by
        simp [endsFrame_of_not_snapshots (hmid e he)]
      rw [h.counted, List.countP_append, List.countP_cons, hnone]
      rfl
    exact ⟨pre, mid, first, t, ⟨[], hsplit⟩, hbefore, hmid, hfirst, h.reached, hshown⟩

theorem Recorded.step {t₀ t t' : Telemetry} {events : List Event} {e : Event}
    (h : Recorded t₀ events t) (hs : t.step e = some t') : Recorded t₀ (events ++ [e]) t' := by
  cases e with
  | readInputs offset data =>
    apply h.other hs id
    obtain ⟨_, _, rfl⟩ := readInputs_eq hs
    exact ⟨rfl, rfl⟩
  | run e =>
    apply h.other hs id
    obtain ⟨_, _, _, rfl⟩ := runStep_eq hs
    exact ⟨rfl, rfl⟩
  | snapshotInput => exact h.snapshotInput hs
  | snapshotOutput => exact h.snapshotOutput hs

theorem recorded_run {period : Int64} {mem : MemoryMap} {events : List Event} {t : Telemetry}
    (hrun : (start period mem).run events = some t) : Recorded (start period mem) events t := by
  apply Machine.run_induction (Recorded (start period mem)) _ _ hrun
  · exact ⟨rfl, rfl, by simp [start], by simp [start]⟩
  · intro es s e s' _ hs hstep
    exact hs.step hstep

theorem telemetryMessage_inj {sequence sequence' : UInt64} {input output input' output' : List UInt8}
    (h : telemetryMessage sequence input output = telemetryMessage sequence' input' output') :
    input = input' ∧ output = output' := by
  have hbytes : Function.Injective fun bytes : List UInt8 =>
      bytes.map fun byte => Json.numberUnsigned byte.toUInt64 := by
    apply List.map_injective_iff.mpr
    intro a b hab
    exact UInt8.toUInt64_inj.mp (Json.numberUnsigned.inj hab)
  simp only [telemetryMessage, Json.object.injEq, List.cons.injEq, Prod.mk.injEq, Json.array.injEq,
    true_and] at h
  exact ⟨hbytes h.1, hbytes h.2.1⟩

/-- The two arrays are the contents of the areas at one moment of the run that
lies between two cycles. -/
def Coherent (t₀ : Telemetry) (events : List Event) (message : Json) : Prop :=
  ∃ moment s sequence, moment <+: events ∧ t₀.run moment = some s ∧ s.between = true ∧
    message = telemetryMessage sequence (areaSnapshot s.system.mem .input)
      (areaSnapshot s.system.mem .output)

theorem Framed.coherent {t₀ s : Telemetry} {events : List Event} {k : Nat} {message : Json}
    {pre mid moment : List Event} {first second : Telemetry}
    (h : Framed t₀ events k message pre mid first second) (hsound : t₀.Sound)
    (hmoment : moment <+: events) (hs : t₀.run moment = some s) (hbetween : s.between = true)
    (hinput : NoneBetween (Event.Writes .input) moment pre)
    (houtput : NoneBetween (Event.Writes .output) moment (pre ++ .snapshotInput :: mid)) :
    Coherent t₀ events message := by
  have hI := same_of_noneBetween hsound hs h.atFirst hinput
  have hQ := same_of_noneBetween hsound hs h.atSecond houtput
  refine ⟨moment, s, UInt64.ofNat k, hmoment, hs, hbetween, ?_⟩
  rw [h.shown]
  simp only [areaSnapshot, hI, hQ]

/-- The `k`th frame shows %I whole at the `k`th first snapshot of the run and %Q
whole at the second that follows. It is coherent if a moment between cycles has no driver between itself and the
first and no rule between itself and the second. -/
theorem frame_shows {period : Int64} {mem : MemoryMap} {events : List Event} {t : Telemetry}
    (hrun : (start period mem).run events = some t) {k : Nat} {message : Json}
    (hk : t.messages[k]? = some message) :
    ∃ pre mid first second, Framed (start period mem) events k message pre mid first second ∧
      ∀ moment s, moment <+: events → (start period mem).run moment = some s →
        s.between = true → NoneBetween (Event.Writes .input) moment pre →
        NoneBetween (Event.Writes .output) moment (pre ++ .snapshotInput :: mid) →
        Coherent (start period mem) events message := by
  obtain ⟨pre, mid, first, second, hframed⟩ := (recorded_run hrun).framed k message hk
  refine ⟨pre, mid, first, second, hframed, ?_⟩
  intro moment s hmoment hs hbetween hinput houtput
  exact hframed.coherent (sound_start period mem) hmoment hs hbetween hinput houtput

/-- `%Q0.0 := %I0.0`. -/
def copyRules : List RuleSpec :=
  [⟨"copy", ⟨.output, ⟨0, getSize_pos .output⟩, 0⟩, output_ne_input, .input ⟨.input, ⟨0, getSize_pos .input⟩, 0⟩⟩]

def loadEvents : List Event :=
  [.run (.parse 0 (canonicalDocument copyRules)), .run (.swap 0), .snapshotInput]

def copied : MemoryMap :=
  (({} : MemoryMap).setByte .input ⟨0, getSize_pos .input⟩ 1).setBitAt ⟨.output, ⟨0, getSize_pos .output⟩, 0⟩ true

def loaded : Telemetry where
  system :=
    { runtime := ((LogicRuntime.empty 100).allocate (.ofSpecs copyRules 100)).reload (some 0)
        (LogicRuntime.lt_length_allocate (.empty 100) _)
      mem := {}
      scan := .idle
      parsed := Function.update (Function.update (fun _ => none) 0 (some 0)) 0 none }
  between := true
  taken := some (areaSnapshot {} .input)
  messages := []

theorem run_loadEvents : (start 100 {}).run loadEvents = some loaded := by
  have hdoc := fromJson_of_denotes 100 (denotes_canonicalDocument copyRules)
  have hperiod : (start 100 {}).system.runtime.period = 100 := rfl
  have hparse : (start 100 {}).step (.run (.parse 0 (canonicalDocument copyRules))) = some
      { system :=
          { runtime := (LogicRuntime.empty 100).allocate (.ofSpecs copyRules 100)
            mem := {}
            scan := .idle
            parsed := Function.update (fun _ => none) 0 (some 0) }
        between := true
        taken := none
        messages := [] } := by
    simp only [step, runStep, System.step, System.parse, hperiod, hdoc]
    rfl
  apply Machine.run_cons.mpr
  exact ⟨_, hparse, rfl⟩

/-- After a first frame a driver reads %I0.0 on, the rule copies it, and a second
frame is taken once the cycle has ended. -/
def secondFrame : List Event :=
  [.snapshotOutput, .readInputs 0 ⟨[1], by decide⟩, .run .copyCurrent, .run .rule, .run .endCycle,
    .snapshotInput, .snapshotOutput]

theorem run_secondFrame : ∃ t, loaded.run secondFrame = some t ∧
    t.messages[1]? = some (telemetryMessage 1 (areaSnapshot copied .input)
      (areaSnapshot copied .output)) ∧
    ∃ s, loaded.run (secondFrame.take 5) = some s ∧ s.between = true :=
  ⟨_, rfl, rfl, _, rfl, rfl⟩

theorem split_secondFrame {pre mid post : List Event}
    (hsplit : loadEvents ++ secondFrame = pre ++ .snapshotInput :: (mid ++ .snapshotOutput :: post))
    (hbefore : pre.countP Event.endsFrame = 1) :
    pre = loadEvents ++ secondFrame.take 5 ∧ mid = [] := by
  have hlength := congrArg List.length hsplit
  simp only [loadEvents, secondFrame, List.length_append, List.length_cons, List.length_nil] at hlength
  have htake : pre = (loadEvents ++ secondFrame).take pre.length := by
    rw [hsplit, List.take_left]
  have hat : (loadEvents ++ secondFrame)[pre.length]? = some .snapshotInput := by
    rw [hsplit, List.getElem?_append_right (Nat.le_refl _), Nat.sub_self]
    rfl
  have height : pre.length = 8 := by
    have hle : pre.length ≤ 8 := by omega
    rw [htake] at hbefore
    interval_cases hn : pre.length
    all_goals first | rfl | (cases hbefore; done) | cases hat
  rw [height] at htake hlength
  refine ⟨htake, List.length_eq_zero_iff.mp ?_⟩
  omega

theorem frame_shows_secondFrame : Coherent (start 100 {}) (loadEvents ++ secondFrame)
    (telemetryMessage 1 (areaSnapshot copied .input) (areaSnapshot copied .output)) := by
  obtain ⟨t, ht, hmessage, s, hs, hbetween⟩ := run_secondFrame
  have hrun := Machine.run_append.mpr ⟨loaded, run_loadEvents, ht⟩
  obtain ⟨pre, mid, first, second, hframed, hcoherent⟩ := frame_shows hrun hmessage
  obtain ⟨post, hsplit⟩ := hframed.split
  obtain ⟨rfl, rfl⟩ := split_secondFrame hsplit hframed.before
  have hmoment := Machine.run_append.mpr ⟨loaded, run_loadEvents, hs⟩
  apply hcoherent _ s _ hmoment hbetween
  · exact ⟨[], by simp, .inl (List.append_nil _).symm⟩
  · exact ⟨[.snapshotInput], by simp [Event.Writes], .inl rfl⟩
  · rw [hsplit]
    exact List.prefix_append _ _

/-! ### A frame between the input and the rule -/

theorem between_step {t t' : Telemetry} {e : Event} (h : t.between = false)
    (he : ∀ f, e = .run f → f ≠ .endCycle) (hs : t.step e = some t') : t'.between = false := by
  cases e with
  | readInputs offset data =>
    obtain ⟨_, _, rfl⟩ := readInputs_eq hs
    rfl
  | run e =>
    obtain ⟨_, _, _, rfl⟩ := runStep_eq hs
    cases e with
    | endCycle => exact absurd rfl (he _ rfl)
    | _ => simp [betweenAfter, h]
  | snapshotInput =>
    obtain rfl := snapshotInput_eq hs
    exact h
  | snapshotOutput =>
    obtain ⟨_, _, rfl⟩ := snapshotOutput_eq hs
    exact h

/-- A driver reads %I0.0 on, the rule copies it, and the second snapshot follows. -/
def cycleEvents : List Event :=
  [.readInputs 0 ⟨[1], by decide⟩, .run .copyCurrent, .run .rule, .snapshotOutput]

def tornEvents : List Event := loadEvents ++ (cycleEvents ++ [.run .endCycle])

theorem run_cycleEvents : ∃ t, loaded.run (cycleEvents ++ [.run .endCycle]) = some t ∧
    t.system.mem = copied ∧
    t.messages = [telemetryMessage 0 (areaSnapshot {} .input) (areaSnapshot copied .output)] :=
  ⟨_, rfl, rfl, rfl⟩

theorem between_cycleEvents {d : List Event} {t : Telemetry} (hd : d <+: cycleEvents) (hne : d ≠ [])
    (hrun : loaded.run d = some t) : t.between = false := by
  cases d with
  | nil => exact absurd rfl hne
  | cons e rest =>
    obtain ⟨rfl, hrest⟩ := List.cons_prefix_cons.mp hd
    obtain ⟨m, hm, hrun⟩ := Machine.run_cons.mp hrun
    have hstart : m.between = false := by
      obtain rfl := Option.some.inj hm
      rfl
    have hall : ∀ e ∈ rest, ∀ f, e = .run f → f ≠ .endCycle := by
      intro e he
      have hmem := hrest.subset he
      simp only [List.mem_cons, List.not_mem_nil, or_false] at hmem
      obtain rfl | rfl | rfl := hmem <;> simp
    exact Machine.run_invariant (fun s => s.between = false) (fun _ _ _ => between_step) hstart hall hrun

theorem not_coherent_copied : ¬ Coherent (start 100 {}) tornEvents
    (telemetryMessage 0 (areaSnapshot {} .input) (areaSnapshot copied .output)) := by
  rintro ⟨moment, s, sequence, hmoment, hs, hbetween, hshown⟩
  obtain ⟨hin, hout⟩ := telemetryMessage_inj hshown
  have hI : ({} : MemoryMap).getAreaPtr .input = s.system.mem.getAreaPtr .input :=
    List.ofFn_injective hin
  have hQ : copied.getAreaPtr .output = s.system.mem.getAreaPtr .output :=
    List.ofFn_injective hout
  have hload : ¬ moment <+: loadEvents := by
    intro hprefix
    have hno : ∀ e ∈ moment, ¬ e.Writes .output := by
      intro e he
      have hmem := hprefix.subset he
      simp only [loadEvents, List.mem_cons, List.not_mem_nil, or_false] at hmem
      obtain rfl | rfl | rfl := hmem <;> exact id
    have hsame := area_run (sound_start 100 {}) hno hs
    have hbyte := congrFun (hQ.trans hsame) ⟨0, by decide⟩
    exact absurd hbyte (by decide)
  obtain hprefix | ⟨d, rfl⟩ := List.prefix_or_prefix_of_prefix hmoment (List.prefix_append loadEvents _)
  · exact hload hprefix
  · obtain ⟨m, hm, hd⟩ := Machine.run_append.mp hs
    obtain rfl : loaded = m := Option.some.inj (run_loadEvents.symm.trans hm)
    obtain hall | hpart := List.prefix_concat_iff.mp ((List.prefix_append_right_inj loadEvents).mp hmoment)
    · obtain ⟨t, ht, hmem, _⟩ := run_cycleEvents
      obtain rfl : t = s := Option.some.inj (ht.symm.trans (hall ▸ hd))
      rw [hmem] at hI
      exact absurd (congrFun hI ⟨0, by decide⟩) (by decide)
    · have hne : d ≠ [] := by
        rintro rfl
        exact hload (by simp)
      have hnot := between_cycleEvents hpart hne hd
      rw [hbetween] at hnot
      cases hnot

theorem torn_frame : ∃ t, (start 100 {}).run tornEvents = some t ∧
    ∃ message ∈ t.messages, ¬ Coherent (start 100 {}) tornEvents message := by
  obtain ⟨t, ht, _, hmessages⟩ := run_cycleEvents
  refine ⟨t, Machine.run_append.mpr ⟨loaded, run_loadEvents, ht⟩, _, ?_, not_coherent_copied⟩
  simp [hmessages]

end Telemetry

end Openaslc
