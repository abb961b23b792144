import Openaslc.LoggerRuns
import Openaslc.Machine

/-! The life of a logger: the calls of its owner, the flushing thread, and log
calls of any threads in between. Every step is one that the mutex or the join
makes atomic. -/

namespace Openaslc

/-- `checking` is the condition of `flush_loop`; `exited` is not joined yet. -/
inductive FlusherPhase
  | absent
  | checking
  | waiting
  | writing (batch : List LogEntry)
  | exited

/-- How far a call of `stop`, by the owner or by the destructor, has come. -/
inductive OwnerPhase
  | idle
  | joining (destructor : Bool)
  | draining (destructor : Bool)
  | writing (destructor : Bool) (batch : List LogEntry)
  | returning (destructor : Bool)
  | destroyed

def FlusherPhase.batch : FlusherPhase → List LogEntry
  | .writing batch => batch
  | _ => []

def OwnerPhase.batch : OwnerPhase → List LogEntry
  | .writing _ batch => batch
  | _ => []

/-- `written` is everything ever written to the log file. -/
structure LoggerSystem where
  ring : LoggerRun
  running : Bool := false
  stopRequested : Bool := false
  flusher : FlusherPhase := .absent
  owner : OwnerPhase := .idle
  written : List LogEntry := []

/-- A write comes with whether the file could be opened. -/
inductive LifecycleEvent (ι : Type)
  | log (thread : ι) (call : LogCall)
  | start
  | stop
  | destroy
  | join
  | finalDrain
  | finalWrite (opened : Bool)
  | returned
  | check
  | drain
  | write (opened : Bool)

namespace LoggerSystem

variable {ι : Type}

def beginStart (s : LoggerSystem) : LoggerSystem :=
  if s.running then s
  else { s with running := true, stopRequested := false, flusher := .checking }

def beginStop (s : LoggerSystem) (destructor : Bool) : LoggerSystem :=
  if s.running then
    { s with running := false, stopRequested := true, owner := .joining destructor }
  else
    { s with owner := .returning destructor }

/-- A stream that is not open takes every line and writes none. -/
def writeEntries (s : LoggerSystem) (opened : Bool) (batch : List LogEntry) : LoggerSystem :=
  { s with written := s.written ++ if opened then batch else [] }

def drainRing (ι : Type) (s : LoggerSystem) : LoggerSystem :=
  { s with ring := s.ring.step (.drain : LoggerEvent ι) }

/-- `flush_pending` in `stop`, up to the write. -/
def ownerDrains (ι : Type) (s : LoggerSystem) (destructor : Bool) : LoggerSystem :=
  { s.drainRing ι with
    owner := if s.ring.logger.count = 0 then .returning destructor
      else .writing destructor s.ring.logger.takePending.1 }

/-- `flush_pending` in `flush_loop`, up to the write. -/
def flusherDrains (ι : Type) (s : LoggerSystem) : LoggerSystem :=
  { s.drainRing ι with
    flusher := if s.ring.logger.count = 0 then .checking
      else .writing s.ring.logger.takePending.1 }

def step (s : LoggerSystem) : LifecycleEvent ι → Option LoggerSystem
  | .log thread call =>
    match s.owner with
    | .destroyed => none
    | _ => some { s with ring := s.ring.step (.log thread call) }
  | .start =>
    match s.owner with
    | .idle => some s.beginStart
    | _ => none
  | .stop =>
    match s.owner with
    | .idle => some (s.beginStop false)
    | _ => none
  | .destroy =>
    match s.owner with
    | .idle => some (s.beginStop true)
    | _ => none
  | .join =>
    match s.owner, s.flusher with
    | .joining destructor, .exited => some { s with flusher := .absent, owner := .draining destructor }
    | _, _ => none
  | .finalDrain =>
    match s.owner with
    | .draining destructor => some (s.ownerDrains ι destructor)
    | _ => none
  | .finalWrite opened =>
    match s.owner with
    | .writing destructor batch => some { s.writeEntries opened batch with owner := .returning destructor }
    | _ => none
  | .returned =>
    match s.owner with
    | .returning destructor => some { s with owner := if destructor then .destroyed else .idle }
    | _ => none
  | .check =>
    match s.flusher with
    | .checking => some { s with flusher := if s.stopRequested then .exited else .waiting }
    | _ => none
  | .drain =>
    match s.flusher with
    | .waiting => some (s.flusherDrains ι)
    | _ => none
  | .write opened =>
    match s.flusher with
    | .writing batch => some { s.writeEntries opened batch with flusher := .checking }
    | _ => none

def constructed (slots : Vector LogEntry kCapacity) : LoggerSystem :=
  { ring := ⟨{ buffer := slots }, []⟩ }

abbrev run (slots : Vector LogEntry kCapacity) (events : List (LifecycleEvent ι)) :
    Option LoggerSystem := Machine.run step (constructed slots) events

end LoggerSystem

variable {ι : Type}

def LifecycleEvent.ringEvent? : LifecycleEvent ι → Option (LoggerEvent ι)
  | .log thread call => some (.log thread call)
  | .finalDrain => some .drain
  | .drain => some .drain
  | _ => none

def ringEvents (events : List (LifecycleEvent ι)) : List (LoggerEvent ι) :=
  events.filterMap LifecycleEvent.ringEvent?

def LifecycleEvent.Opens : LifecycleEvent ι → Prop
  | .finalWrite opened => opened = true
  | .write opened => opened = true
  | _ => True

/-- A log call came after the last drain. -/
def loggedLast (events : List (LifecycleEvent ι)) : Bool :=
  events.foldl (fun last e => match e with
    | .log _ _ => true
    | .finalDrain => false
    | .drain => false
    | _ => last) false

namespace LoggerSystem

/-- The file has every entry, in order, but for overwritten ones, and the
counter has their number, modulo 2^64. -/
def Accounted (slots : Vector LogEntry kCapacity) (events : List (LifecycleEvent ι))
    (s : LoggerSystem) : Prop :=
  ∃ removed : List Nat, removed.Nodup ∧
    (∀ i ∈ removed, LoggerRun.Overwrites slots (ringEvents events) i) ∧
    s.written.map LogEntry.record = Ledger.without removed (logged (ringEvents events)) ∧
    s.ring.logger.dropped.toNat = removed.length % 2 ^ 64

/-! ### What a step does -/

def inFlight (s : LoggerSystem) : List LogEntry := s.flusher.batch ++ s.owner.batch

/-- The flushing thread is there only while the logger runs or is being
stopped, and a batch is written only if there is one. -/
structure Shape (s : LoggerSystem) : Prop where
  alone : s.flusher = .absent ∨ (s.owner = .idle ∧ s.running = true) ∨ ∃ d, s.owner = .joining d
  flusherBatch : ∀ batch, s.flusher = .writing batch → batch ≠ []
  ownerBatch : ∀ d batch, s.owner = .writing d batch → batch ≠ []

inductive Effect (s : LoggerSystem) : LifecycleEvent ι → LoggerSystem → Prop
  | quiet {e : LifecycleEvent ι} {s' : LoggerSystem} (none : e.ringEvent? = none) (opens : e.Opens)
      (ring : s'.ring = s.ring) (written : s'.written = s.written)
      (inFlight : s'.inFlight = s.inFlight) : Effect s e s'
  | logged {thread : ι} {call : LogCall} :
      Effect s (.log thread call) { s with ring := s.ring.step (.log thread call) }
  | took {e : LifecycleEvent ι} {s' : LoggerSystem} (drain : e.ringEvent? = some .drain)
      (opens : e.Opens) (before : s.inFlight = []) (ring : s'.ring = s.ring.step (.drain : LoggerEvent ι))
      (written : s'.written = s.written) (inFlight : s'.inFlight = s.ring.logger.takePending.1) :
      Effect s e s'
  | wrote {e : LifecycleEvent ι} {s' : LoggerSystem} {opened : Bool} (none : e.ringEvent? = none)
      (opens : e.Opens ↔ opened = true) (batch : s.inFlight ≠ []) (ring : s'.ring = s.ring)
      (written : s'.written = s.written ++ if opened then s.inFlight else [])
      (inFlight : s'.inFlight = []) : Effect s e s'

variable {s s' : LoggerSystem}

theorem Shape.flusher_absent (h : Shape s) (hidle : s.owner = .idle → s.running = false)
    (hjoining : ∀ d, s.owner ≠ .joining d) : s.flusher = .absent := by
  rcases h.alone with habsent | ⟨howner, hrunning⟩ | ⟨d, howner⟩
  · exact habsent
  · rw [hidle howner] at hrunning
    cases hrunning
  · exact absurd howner (hjoining d)

theorem Shape.ownerBatch_nil (h : Shape s) (hflusher : s.flusher ≠ .absent) : s.owner.batch = [] := by
  rcases h.alone with habsent | ⟨howner, _⟩ | ⟨d, howner⟩
  · exact absurd habsent hflusher
  · rw [howner]
    rfl
  · rw [howner]
    rfl

theorem Shape.beginStop (h : Shape s) (hidle : s.owner = .idle) (d : Bool) :
    Shape (s.beginStop d) ∧ (s.beginStop d).ring = s.ring ∧ (s.beginStop d).written = s.written ∧
      (s.beginStop d).inFlight = s.inFlight := by
  have hbatch : s.owner.batch = [] := by
    rw [hidle]
    rfl
  unfold LoggerSystem.beginStop
  split
  · refine ⟨⟨.inr (.inr ⟨d, rfl⟩), h.flusherBatch, nofun⟩, rfl, rfl, ?_⟩
    rw [inFlight, inFlight, hbatch]
    rfl
  · next hrunning =>
    have habsent := h.flusher_absent (fun _ => by simpa using hrunning) (by simp [hidle])
    refine ⟨⟨.inl habsent, h.flusherBatch, nofun⟩, rfl, rfl, ?_⟩
    rw [inFlight, inFlight, hbatch]
    rfl

theorem Shape.beginStart (h : Shape s) (hidle : s.owner = .idle) :
    Shape s.beginStart ∧ s.beginStart.ring = s.ring ∧ s.beginStart.written = s.written ∧
      s.beginStart.inFlight = s.inFlight := by
  unfold LoggerSystem.beginStart
  split
  · exact ⟨h, rfl, rfl, rfl⟩
  · next hrunning =>
    have habsent := h.flusher_absent (fun _ => by simpa using hrunning) (by simp [hidle])
    refine ⟨⟨.inr (.inl ⟨hidle, rfl⟩), nofun, h.ownerBatch⟩, rfl, rfl, ?_⟩
    rw [inFlight, inFlight, habsent]
    rfl

theorem Shape.ownerDrains (h : Shape s) {d : Bool} (howner : s.owner = .draining d) :
    Shape (s.ownerDrains ι d) ∧ s.inFlight = [] ∧
      (s.ownerDrains ι d).inFlight = s.ring.logger.takePending.1 := by
  have habsent := h.flusher_absent (by simp [howner]) (by simp [howner])
  have hbefore : s.inFlight = [] := by
    rw [inFlight, habsent, howner]
    rfl
  have hcount := s.ring.logger.length_takePending
  unfold LoggerSystem.ownerDrains
  split
  · next hzero =>
    refine ⟨⟨.inl habsent, h.flusherBatch, nofun⟩, hbefore, ?_⟩
    rw [hzero, List.length_eq_zero_iff] at hcount
    show s.flusher.batch ++ [] = _
    rw [habsent, hcount]
    rfl
  · next hpos =>
    refine ⟨⟨.inl habsent, h.flusherBatch, ?_⟩, hbefore, ?_⟩
    · rintro d' batch ⟨⟩
      exact List.ne_nil_of_length_pos (by omega)
    · show s.flusher.batch ++ _ = _
      rw [habsent]
      rfl

theorem Shape.flusherDrains (h : Shape s) (hflusher : s.flusher = .waiting) :
    Shape (s.flusherDrains ι) ∧ s.inFlight = [] ∧
      (s.flusherDrains ι).inFlight = s.ring.logger.takePending.1 := by
  have halone := h.alone.resolve_left (by simp [hflusher])
  have howner := h.ownerBatch_nil (by simp [hflusher])
  have hbefore : s.inFlight = [] := by
    rw [inFlight, hflusher, howner]
    rfl
  have hcount := s.ring.logger.length_takePending
  unfold LoggerSystem.flusherDrains
  split
  · next hzero =>
    refine ⟨⟨.inr halone, nofun, h.ownerBatch⟩, hbefore, ?_⟩
    rw [hzero, List.length_eq_zero_iff] at hcount
    show [] ++ s.owner.batch = _
    rw [howner, hcount]
    rfl
  · next hpos =>
    refine ⟨⟨.inr halone, ?_, h.ownerBatch⟩, hbefore, ?_⟩
    · rintro batch ⟨⟩
      exact List.ne_nil_of_length_pos (by omega)
    · show _ ++ s.owner.batch = _
      rw [howner, List.append_nil]
      rfl

theorem Shape.inFlight_owner (h : Shape s) {d : Bool} {batch : List LogEntry}
    (howner : s.owner = .writing d batch) : s.flusher = .absent ∧ s.inFlight = batch := by
  have habsent := h.flusher_absent (by simp [howner]) (by simp [howner])
  refine ⟨habsent, ?_⟩
  rw [inFlight, habsent, howner]
  rfl

theorem Shape.inFlight_flusher (h : Shape s) {batch : List LogEntry}
    (hflusher : s.flusher = .writing batch) : s.owner.batch = [] ∧ s.inFlight = batch := by
  have howner := h.ownerBatch_nil (by simp [hflusher])
  refine ⟨howner, ?_⟩
  rw [inFlight, hflusher, howner, List.append_nil]
  rfl

theorem Shape.step (h : Shape s) {e : LifecycleEvent ι} (hstep : s.step e = some s') :
    Shape s' ∧ Effect s e s' := by
  cases e with
  | log thread call =>
    simp only [LoggerSystem.step] at hstep
    split at hstep
    · cases hstep
    · cases hstep
      exact ⟨⟨h.alone, h.flusherBatch, h.ownerBatch⟩, .logged⟩
  | start =>
    simp only [LoggerSystem.step] at hstep
    split at hstep
    · next hidle =>
      cases hstep
      obtain ⟨hshape, hring, hwritten, hflight⟩ := h.beginStart hidle
      exact ⟨hshape, .quiet rfl trivial hring hwritten hflight⟩
    · cases hstep
  | stop =>
    simp only [LoggerSystem.step] at hstep
    split at hstep
    · next hidle =>
      cases hstep
      obtain ⟨hshape, hring, hwritten, hflight⟩ := h.beginStop hidle false
      exact ⟨hshape, .quiet rfl trivial hring hwritten hflight⟩
    · cases hstep
  | destroy =>
    simp only [LoggerSystem.step] at hstep
    split at hstep
    · next hidle =>
      cases hstep
      obtain ⟨hshape, hring, hwritten, hflight⟩ := h.beginStop hidle true
      exact ⟨hshape, .quiet rfl trivial hring hwritten hflight⟩
    · cases hstep
  | join =>
    simp only [LoggerSystem.step] at hstep
    split at hstep
    · next d howner hflusher =>
      cases hstep
      refine ⟨⟨.inl rfl, nofun, nofun⟩, .quiet rfl trivial rfl rfl ?_⟩
      rw [inFlight, inFlight, howner, hflusher]
      rfl
    · cases hstep
  | finalDrain =>
    simp only [LoggerSystem.step] at hstep
    split at hstep
    · next d howner =>
      cases hstep
      obtain ⟨hshape, hbefore, hflight⟩ := @Shape.ownerDrains ι s h d howner
      exact ⟨hshape, .took rfl trivial hbefore rfl rfl hflight⟩
    · cases hstep
  | finalWrite opened =>
    simp only [LoggerSystem.step] at hstep
    split at hstep
    · next d batch howner =>
      cases hstep
      obtain ⟨habsent, hflight⟩ := h.inFlight_owner howner
      have hne := h.ownerBatch d batch howner
      refine ⟨⟨.inl habsent, h.flusherBatch, nofun⟩, .wrote rfl Iff.rfl (hflight ▸ hne) rfl ?_ ?_⟩
      · rw [hflight]
        rfl
      · show s.flusher.batch ++ [] = []
        rw [habsent]
        rfl
    · cases hstep
  | returned =>
    simp only [LoggerSystem.step] at hstep
    split at hstep
    · next d howner =>
      cases hstep
      have habsent := h.flusher_absent (by simp [howner]) (by simp [howner])
      refine ⟨⟨.inl habsent, h.flusherBatch, ?_⟩, .quiet rfl trivial rfl rfl ?_⟩
      · intro d' batch
        cases d <;> nofun
      · rw [inFlight, inFlight, howner]
        cases d <;> rfl
    · cases hstep
  | check =>
    simp only [LoggerSystem.step] at hstep
    split at hstep
    · next hflusher =>
      cases hstep
      have halone := h.alone.resolve_left (by simp [hflusher])
      refine ⟨⟨.inr halone, ?_, h.ownerBatch⟩, .quiet rfl trivial rfl rfl ?_⟩
      · intro batch
        cases s.stopRequested <;> nofun
      · rw [inFlight, inFlight, hflusher]
        cases s.stopRequested <;> rfl
    · cases hstep
  | drain =>
    simp only [LoggerSystem.step] at hstep
    split at hstep
    · next hflusher =>
      cases hstep
      obtain ⟨hshape, hbefore, hflight⟩ := @Shape.flusherDrains ι s h hflusher
      exact ⟨hshape, .took rfl trivial hbefore rfl rfl hflight⟩
    · cases hstep
  | write opened =>
    simp only [LoggerSystem.step] at hstep
    split at hstep
    · next batch hflusher =>
      cases hstep
      have halone := h.alone.resolve_left (by simp [hflusher])
      obtain ⟨howner, hflight⟩ := h.inFlight_flusher hflusher
      have hne := h.flusherBatch batch hflusher
      refine ⟨⟨.inr halone, nofun, h.ownerBatch⟩, .wrote rfl Iff.rfl (hflight ▸ hne) rfl ?_ ?_⟩
      · rw [hflight]
        rfl
      · show [] ++ s.owner.batch = []
        rw [howner]
        rfl
    · cases hstep

/-! ### Whole lives -/

theorem ringEvents_concat (events : List (LifecycleEvent ι)) (e : LifecycleEvent ι) :
    ringEvents (events ++ [e]) = ringEvents events ++ e.ringEvent?.toList := by
  rw [ringEvents, List.filterMap_append, List.filterMap_cons]
  cases e.ringEvent? with
  | none => rfl
  | some re => rfl

theorem loggedLast_concat (events : List (LifecycleEvent ι)) (e : LifecycleEvent ι) :
    loggedLast (events ++ [e]) = match e.ringEvent? with
      | some (.log _ _) => true
      | some .drain => false
      | none => loggedLast events := by
  rw [loggedLast, List.foldl_append]
  cases e with
  | _ => rfl

theorem forall_opens_concat {events : List (LifecycleEvent ι)} {e : LifecycleEvent ι} :
    (∀ e' ∈ events ++ [e], e'.Opens) ↔ (∀ e' ∈ events, e'.Opens) ∧ e.Opens := by
  simp only [List.mem_append, List.mem_singleton, or_imp, forall_and, forall_eq]

/-- The batches are in the file or on their way there, but for those whose file
could not be opened. -/
structure Flow (slots : Vector LogEntry kCapacity) (events : List (LifecycleEvent ι))
    (s : LoggerSystem) : Prop where
  shape : Shape s
  ring : s.ring = LoggerRun.run slots (ringEvents events)
  last : s.ring.logger.count = 0 ↔ loggedLast events = false
  kept : (∀ e ∈ events, e.Opens) → s.ring.drained = s.written ++ s.inFlight
  lost : ¬ (∀ e ∈ events, e.Opens) →
    s.written.length + s.inFlight.length < s.ring.drained.length

variable {slots : Vector LogEntry kCapacity} {events : List (LifecycleEvent ι)}

theorem flow_constructed (slots : Vector LogEntry kCapacity) :
    Flow slots ([] : List (LifecycleEvent ι)) (constructed slots) := by
  refine ⟨⟨.inl rfl, nofun, nofun⟩, rfl, ?_, fun _ => rfl, fun h => absurd (by simp) h⟩
  exact iff_of_true rfl rfl

theorem Flow.concat_of_opens (h : Flow slots events s) {e : LifecycleEvent ι} (hopens : e.Opens)
    (hshape : Shape s') (hring : s'.ring = LoggerRun.run slots (ringEvents (events ++ [e])))
    (hlast : s'.ring.logger.count = 0 ↔ loggedLast (events ++ [e]) = false) (more : List LogEntry)
    (hdrained : s'.ring.drained = s.ring.drained ++ more) (hwritten : s'.written = s.written)
    (hflight : s'.inFlight = s.inFlight ++ more) : Flow slots (events ++ [e]) s' := by
  refine ⟨hshape, hring, hlast, fun hall => ?_, fun hnot => ?_⟩
  · rw [hdrained, hwritten, hflight, h.kept (forall_opens_concat.mp hall).1, List.append_assoc]
  · have hlost := h.lost fun hall => hnot (forall_opens_concat.mpr ⟨hall, hopens⟩)
    rw [hdrained, hwritten, hflight, List.length_append, List.length_append]
    omega

theorem Flow.step (h : Flow slots events s) {e : LifecycleEvent ι} (hstep : s.step e = some s') :
    Flow slots (events ++ [e]) s' := by
  obtain ⟨hshape, heffect⟩ := h.shape.step hstep
  have hevents := ringEvents_concat events e
  have hlast := loggedLast_concat events e
  cases heffect with
  | quiet hnone hopens hring hwritten hflight =>
    rw [hnone] at hevents hlast
    rw [Option.toList_none, List.append_nil] at hevents
    refine h.concat_of_opens hopens hshape ?_ ?_ [] ?_ hwritten ?_
    · rw [hevents, hring, h.ring]
    · rw [hlast, hring, h.last]
    · rw [hring, List.append_nil]
    · rw [hflight, List.append_nil]
  | @logged thread call =>
    have hring : s.ring.step (.log thread call) =
        LoggerRun.run slots (ringEvents (events ++ [.log thread call])) := by
      rw [hevents, h.ring, LifecycleEvent.ringEvent?, Option.toList_some, LoggerRun.run_concat]
    refine h.concat_of_opens trivial hshape hring ?_ [] ?_ rfl ?_
    · rw [hlast]
      exact iff_of_false (s.ring.logger.count_log_ne_zero call) Bool.noConfusion
    · exact (List.append_nil _).symm
    · exact (List.append_nil _).symm
  | took hdrain hopens hbefore hring hwritten hflight =>
    rw [hdrain] at hevents hlast
    refine h.concat_of_opens hopens hshape ?_ ?_ s.ring.logger.takePending.1 ?_ hwritten ?_
    · rw [hevents, hring, h.ring, Option.toList_some, LoggerRun.run_concat]
    · rw [hlast, hring]
      exact iff_of_true s.ring.logger.count_takePending rfl
    · rw [hring]
      rfl
    · rw [hflight, hbefore, List.nil_append]
  | @wrote _ _ opened hnone hopens hbatch hring hwritten hflight =>
    rw [hnone] at hevents hlast
    rw [Option.toList_none, List.append_nil] at hevents
    refine ⟨hshape, ?_, ?_, fun hall => ?_, fun hnot => ?_⟩
    · rw [hevents, hring, h.ring]
    · rw [hlast, hring, h.last]
    · obtain ⟨hall, hopened⟩ := forall_opens_concat.mp hall
      rw [hring, hwritten, hflight, if_pos (hopens.mp hopened), List.append_nil, h.kept hall]
    · rw [hring, hwritten, hflight, List.length_append, List.length_nil]
      by_cases hall : ∀ e ∈ events, e.Opens
      · have hclosed : ¬ opened = true := fun hopened =>
          hnot (forall_opens_concat.mpr ⟨hall, hopens.mpr hopened⟩)
        have hpos := List.length_pos_iff.mpr hbatch
        rw [if_neg hclosed, h.kept hall, List.length_append, List.length_nil]
        omega
      · have hlost := h.lost hall
        have hle : (if opened then s.inFlight else []).length ≤ s.inFlight.length := by
          split
          · exact Nat.le_refl _
          · exact Nat.zero_le _
        omega

theorem flow_run (hrun : run slots events = some s) : Flow slots events s :=
  Machine.run_induction (Flow slots) (flow_constructed slots) (fun _ _ _ _ _ h hstep => h.step hstep) hrun

theorem Flow.inFlight_destroyed (h : Flow slots events s) (hend : s.owner = .destroyed) :
    s.inFlight = [] := by
  have habsent := h.shape.flusher_absent (by simp [hend]) (by simp [hend])
  rw [inFlight, habsent, hend]
  rfl

/-- Nothing is missing where the file has as many entries as were neither
overwritten nor left in the ring. -/
theorem Accounted.length_le (h : Accounted slots events s) (hflow : Flow slots events s) :
    s.ring.drained.length + s.ring.logger.count ≤ s.written.length := by
  obtain ⟨removed, hnodup, hover, hwritten, _⟩ := h
  obtain ⟨g, ring, hbal, htotal, hremoved⟩ := LoggerRun.exists_balances slots (ringEvents events)
  rw [← hflow.ring] at hbal
  have hsub : removed ⊆ g.removed := fun i hi => (hremoved i).mpr (hover i hi)
  have hle := (List.subperm_of_subset hnodup hsub).length_le
  have hkept := Ledger.length_le_without removed (logged (ringEvents events))
  have htotals := g.length_total
  rw [← hwritten, List.length_map] at hkept
  rw [← hbal.out, List.length_map, hbal.length_waiting, htotal] at htotals
  omega

/-- A life that has ended: every entry is in the file or was counted exactly
when every batch found the file open and a drain came after every log call. -/
theorem accounted_iff (slots : Vector LogEntry kCapacity) (events : List (LifecycleEvent ι))
    (s : LoggerSystem) (hrun : run slots events = some s) (hend : s.owner = .destroyed) :
    Accounted slots events s ↔ (∀ e ∈ events, e.Opens) ∧ loggedLast events = false := by
  have hflow := flow_run hrun
  have hflight := hflow.inFlight_destroyed hend
  rw [← hflow.last]
  constructor
  · intro haccounted
    have hle := haccounted.length_le hflow
    by_cases hall : ∀ e ∈ events, e.Opens
    · have hkept := congrArg List.length (hflow.kept hall)
      rw [hflight, List.append_nil] at hkept
      exact ⟨hall, by omega⟩
    · have hlost := hflow.lost hall
      omega
  · rintro ⟨hall, hzero⟩
    obtain ⟨g, ring, hbal, htotal, hremoved⟩ := LoggerRun.exists_balances slots (ringEvents events)
    rw [← hflow.ring] at hbal
    have hwaiting : g.waiting = [] :=
      List.length_eq_zero_iff.mp (hbal.length_waiting.trans hzero)
    have hkept := hflow.kept hall
    rw [hflight, List.append_nil] at hkept
    refine ⟨g.removed, g.nodup, fun i hi => (hremoved i).mp hi, ?_, ?_⟩
    · rw [← hkept, hbal.out, ← htotal, ← g.out_append_waiting, hwaiting, List.append_nil]
    · rw [hbal.dropped, UInt64.toNat_ofNat']

def tick : LogCall := ⟨0, .info, "tick"⟩

def stoppedLife : List (LifecycleEvent Unit) :=
  [.start, .log () tick, .check, .drain, .write true, .log () tick, .stop, .check, .join, .finalDrain,
    .finalWrite true, .returned, .destroy, .returned]

theorem accounted_iff_stopped : ∃ s,
    run (Vector.replicate kCapacity LoggerRun.blankEntry) stoppedLife = some s ∧
      (Accounted (Vector.replicate kCapacity LoggerRun.blankEntry) stoppedLife s ↔
        (∀ e ∈ stoppedLife, e.Opens) ∧ loggedLast stoppedLife = false) :=
  ⟨_, rfl, accounted_iff (Vector.replicate kCapacity LoggerRun.blankEntry) stoppedLife _ rfl rfl⟩

def unstartedLife : List (LifecycleEvent Unit) := [.log () tick, .destroy, .returned]

/-- An entry logged before `start` is lost if no `start` comes. -/
theorem unstarted_not_accounted : ∃ s,
    run (Vector.replicate kCapacity LoggerRun.blankEntry) unstartedLife = some s ∧
      s.owner = .destroyed ∧
      ¬ Accounted (Vector.replicate kCapacity LoggerRun.blankEntry) unstartedLife s := by
  refine ⟨_, rfl, rfl, fun h => ?_⟩
  have hle := h.length_le (flow_run rfl)
  exact Nat.not_succ_le_zero _ hle

end LoggerSystem

end Openaslc
