import Openaslc.IODriver
import Openaslc.SwappedProgram

/-! The cyclic engine. Its owner starts and stops it, its worker thread reads
inputs, runs the logic and writes outputs, and other threads call the drivers'
own functions and reload the logic at any time. -/

namespace Openaslc

/-- Where the worker thread stands in `run`; `exited` is not joined yet. -/
inductive EngineWorker
  | absent
  | testing
  | reading (next : Nat)
  | callingBack
  | writing (next : Nat)
  | exited
  deriving DecidableEq

/-- How far a call of `start` or `stop` has come. -/
inductive EngineOwner
  | idle
  | initializing (next : Nat)
  | joining

/-- What the engine calls: its drivers, and the callback with `cycle_count_`. -/
inductive EngineCall (ι : Type)
  | initializeDriver (driver : ι)
  | readInputs (driver : ι)
  | callback (cycleCount : UInt64)
  | writeOutputs (driver : ι)

/-- The engine with `LogicRuntime::execute_cycle` as its callback. Drivers live
behind shared pointers `ι`; `calls` is everything the engine has called. -/
structure AslcEngine (ι δ : Type) where
  objects : ι → δ
  system : System
  drivers : List ι := []
  cycleCount : UInt64 := 0
  isRunning : Bool := false
  owner : EngineOwner := .idle
  worker : EngineWorker := .absent
  calls : List (EngineCall ι) := []

inductive EngineEvent (ι μ : Type)
  | addDriver (driver : ι)
  | start
  | initializeDriver
  | launch
  | stop
  | join
  | test
  | readInputs
  | run (e : System.Event)
  | writeOutputs
  | count
  | method (driver : ι) (m : μ)

namespace AslcEngine

variable {ι δ : Type}

section

variable {μ : Type} [DecidableEq ι] [IIODriver δ μ]

/-- `push_back`. The vector has no lock: a call while a thread goes through it has
no meaning in the language, and is no step here. -/
def addDriver (e : AslcEngine ι δ) (driver : ι) : Option (AslcEngine ι δ) :=
  match e.owner, e.worker with
  | .idle, .absent => some { e with drivers := e.drivers ++ [driver] }
  | _, _ => none

def start (e : AslcEngine ι δ) : Option (AslcEngine ι δ) :=
  match e.owner with
  | .idle => some (if e.isRunning then e else { e with owner := .initializing 0 })
  | _ => none

/-- One pass of the loop over the drivers in `start`. -/
def initializeNext (e : AslcEngine ι δ) : Option (AslcEngine ι δ) :=
  match e.owner with
  | .initializing i =>
    match e.drivers[i]? with
    | some driver => some { e with
        objects := Function.update e.objects driver (IIODriver.initializeDriver (e.objects driver)).2
        owner := .initializing (i + 1)
        calls := e.calls ++ [.initializeDriver driver] }
    | none => none
  | _ => none

def launch (e : AslcEngine ι δ) : Option (AslcEngine ι δ) :=
  match e.owner with
  | .initializing i =>
    if i = e.drivers.length then
      some { e with isRunning := true, owner := .idle, worker := .testing }
    else none
  | _ => none

/-- Both conditions of the loop in `run` fail from here on. -/
def stop (e : AslcEngine ι δ) : Option (AslcEngine ι δ) :=
  match e.owner with
  | .idle => some (if e.isRunning then { e with isRunning := false, owner := .joining } else e)
  | _ => none

def join (e : AslcEngine ι δ) : Option (AslcEngine ι δ) :=
  match e.owner, e.worker with
  | .joining, .exited => some { e with owner := .idle, worker := .absent }
  | _, _ => none

def test (e : AslcEngine ι δ) : Option (AslcEngine ι δ) :=
  match e.worker with
  | .testing => some { e with worker := if e.isRunning then .reading 0 else .exited }
  | _ => none

/-- An exception would leave the worker thread and end the process. -/
def readInputs (e : AslcEngine ι δ) : Option (AslcEngine ι δ) :=
  match e.worker with
  | .reading i =>
    match e.drivers[i]? with
    | some driver =>
      match IIODriver.readInputs (e.objects driver) e.system.mem with
      | .ok (object, mem) => some { e with
          objects := Function.update e.objects driver object
          system := { e.system with mem }
          worker := .reading (i + 1)
          calls := e.calls ++ [.readInputs driver] }
      | .error _ => none
    | none => none
  | _ => none

/-- The callback begins once every driver has been read, and other threads go
on parsing and swapping. Nothing but drivers and rules writes to the image. -/
def runStep (e : AslcEngine ι δ) : System.Event → Option (AslcEngine ι δ)
  | .copyCurrent =>
    match e.worker with
    | .reading i =>
      if i = e.drivers.length then
        (e.system.step .copyCurrent).map fun system => { e with
          system
          worker := .callingBack
          calls := e.calls ++ [.callback e.cycleCount] }
      else none
    | _ => none
  | .rule =>
    match e.worker with
    | .callingBack => (e.system.step .rule).map fun system => { e with system }
    | _ => none
  | .endCycle =>
    match e.worker with
    | .callingBack => (e.system.step .endCycle).map fun system => { e with system, worker := .writing 0 }
    | _ => none
  | .rewrite _ => none
  | other => (e.system.step other).map fun system => { e with system }

def writeOutputs (e : AslcEngine ι δ) : Option (AslcEngine ι δ) :=
  match e.worker with
  | .writing i =>
    match e.drivers[i]? with
    | some driver =>
      match IIODriver.writeOutputs (e.objects driver) e.system.mem with
      | .ok object => some { e with
          objects := Function.update e.objects driver object
          worker := .writing (i + 1)
          calls := e.calls ++ [.writeOutputs driver] }
      | .error _ => none
    | none => none
  | _ => none

def count (e : AslcEngine ι δ) : Option (AslcEngine ι δ) :=
  match e.worker with
  | .writing i =>
    if i = e.drivers.length then some { e with cycleCount := e.cycleCount + 1, worker := .testing }
    else none
  | _ => none

def step (e : AslcEngine ι δ) : EngineEvent ι μ → Option (AslcEngine ι δ)
  | .addDriver driver => e.addDriver driver
  | .start => e.start
  | .initializeDriver => e.initializeNext
  | .launch => e.launch
  | .stop => e.stop
  | .join => e.join
  | .test => e.test
  | .readInputs => e.readInputs
  | .run other => e.runStep other
  | .writeOutputs => e.writeOutputs
  | .count => e.count
  | .method driver m =>
    some { e with objects := Function.update e.objects driver (IIODriver.method m (e.objects driver)) }

abbrev run : AslcEngine ι δ → List (EngineEvent ι μ) → Option (AslcEngine ι δ) := Machine.run step

/-! ### What a step can be -/

/-- Every enabled event, with what enables it and what it leaves. -/
inductive StepCase (e : AslcEngine ι δ) : EngineEvent ι μ → AslcEngine ι δ → Prop
  | addDriver (driver : ι) (howner : e.owner = .idle) (hworker : e.worker = .absent) :
    StepCase e (.addDriver driver) { e with drivers := e.drivers ++ [driver] }
  | startAgain (howner : e.owner = .idle) (hrunning : e.isRunning = true) : StepCase e .start e
  | start (howner : e.owner = .idle) (hrunning : e.isRunning = false) :
    StepCase e .start { e with owner := .initializing 0 }
  | initializeDriver (i : Nat) (driver : ι) (howner : e.owner = .initializing i)
      (hdriver : e.drivers[i]? = some driver) :
    StepCase e .initializeDriver { e with
      objects := Function.update e.objects driver (IIODriver.initializeDriver (e.objects driver)).2
      owner := .initializing (i + 1)
      calls := e.calls ++ [.initializeDriver driver] }
  | launch (howner : e.owner = .initializing e.drivers.length) :
    StepCase e .launch { e with isRunning := true, owner := .idle, worker := .testing }
  | stopAgain (howner : e.owner = .idle) (hrunning : e.isRunning = false) : StepCase e .stop e
  | stop (howner : e.owner = .idle) (hrunning : e.isRunning = true) :
    StepCase e .stop { e with isRunning := false, owner := .joining }
  | join (howner : e.owner = .joining) (hworker : e.worker = .exited) :
    StepCase e .join { e with owner := .idle, worker := .absent }
  | testOn (hworker : e.worker = .testing) (hrunning : e.isRunning = true) :
    StepCase e .test { e with worker := .reading 0 }
  | testOff (hworker : e.worker = .testing) (hrunning : e.isRunning = false) :
    StepCase e .test { e with worker := .exited }
  | readInputs (i : Nat) (driver : ι) (object : δ) (mem : MemoryMap) (hworker : e.worker = .reading i)
      (hdriver : e.drivers[i]? = some driver)
      (hread : IIODriver.readInputs (e.objects driver) e.system.mem = .ok (object, mem)) :
    StepCase e .readInputs { e with
      objects := Function.update e.objects driver object
      system := { e.system with mem }
      worker := .reading (i + 1)
      calls := e.calls ++ [.readInputs driver] }
  | copyCurrent (system : System) (hworker : e.worker = .reading e.drivers.length)
      (hstep : e.system.step .copyCurrent = some system) :
    StepCase e (.run .copyCurrent) { e with
      system, worker := .callingBack, calls := e.calls ++ [.callback e.cycleCount] }
  | rule (system : System) (hworker : e.worker = .callingBack)
      (hstep : e.system.step .rule = some system) : StepCase e (.run .rule) { e with system }
  | endCycle (system : System) (hworker : e.worker = .callingBack)
      (hstep : e.system.step .endCycle = some system) :
    StepCase e (.run .endCycle) { e with system, worker := .writing 0 }
  | outside (other : System.Event) (system : System) (hno : ∀ f, other ≠ .rewrite f)
      (hscan : other ≠ .copyCurrent ∧ other ≠ .rule ∧ other ≠ .endCycle)
      (hstep : e.system.step other = some system) : StepCase e (.run other) { e with system }
  | writeOutputs (i : Nat) (driver : ι) (object : δ) (hworker : e.worker = .writing i)
      (hdriver : e.drivers[i]? = some driver)
      (hwrite : IIODriver.writeOutputs (e.objects driver) e.system.mem = .ok object) :
    StepCase e .writeOutputs { e with
      objects := Function.update e.objects driver object
      worker := .writing (i + 1)
      calls := e.calls ++ [.writeOutputs driver] }
  | count (hworker : e.worker = .writing e.drivers.length) :
    StepCase e .count { e with cycleCount := e.cycleCount + 1, worker := .testing }
  | method (driver : ι) (m : μ) : StepCase e (.method driver m)
    { e with objects := Function.update e.objects driver (IIODriver.method m (e.objects driver)) }

theorem runStep_case {e e' : AslcEngine ι δ} {other : System.Event}
    (h : e.runStep other = some e') : StepCase (μ := μ) e (.run other) e' := by
  cases other with
  | copyCurrent =>
    simp only [runStep] at h
    split at h
    · next i hworker =>
      split at h
      · next hi =>
        obtain ⟨system, hstep, rfl⟩ := Option.map_eq_some_iff.mp h
        exact .copyCurrent system (hi ▸ hworker) hstep
      · cases h
    · cases h
  | rule =>
    simp only [runStep] at h
    split at h
    · next hworker =>
      obtain ⟨system, hstep, rfl⟩ := Option.map_eq_some_iff.mp h
      exact .rule system hworker hstep
    · cases h
  | endCycle =>
    simp only [runStep] at h
    split at h
    · next hworker =>
      obtain ⟨system, hstep, rfl⟩ := Option.map_eq_some_iff.mp h
      exact .endCycle system hworker hstep
    · cases h
  | rewrite f => cases h
  | _ =>
    simp only [runStep] at h
    obtain ⟨system, hstep, rfl⟩ := Option.map_eq_some_iff.mp h
    exact .outside _ system (by simp) (by simp) hstep

theorem step_case {e e' : AslcEngine ι δ} {ev : EngineEvent ι μ} (h : e.step ev = some e') :
    StepCase e ev e' := by
  cases ev with
  | addDriver driver =>
    simp only [step, addDriver] at h
    split at h
    · next howner hworker =>
      obtain rfl := Option.some.inj h
      exact .addDriver driver howner hworker
    · cases h
  | start =>
    simp only [step, start] at h
    split at h
    · next howner =>
      obtain rfl := Option.some.inj h
      by_cases hrunning : e.isRunning
      · rw [if_pos hrunning]
        exact .startAgain howner hrunning
      · rw [if_neg hrunning]
        exact .start howner (Bool.not_eq_true _ ▸ hrunning)
    · cases h
  | initializeDriver =>
    simp only [step, initializeNext] at h
    split at h
    · next i howner =>
      split at h
      · next driver hdriver =>
        obtain rfl := Option.some.inj h
        exact .initializeDriver i driver howner hdriver
      · cases h
    · cases h
  | launch =>
    simp only [step, launch] at h
    split at h
    · next i howner =>
      split at h
      · next hi =>
        obtain rfl := Option.some.inj h
        exact .launch (hi ▸ howner)
      · cases h
    · cases h
  | stop =>
    simp only [step, stop] at h
    split at h
    · next howner =>
      obtain rfl := Option.some.inj h
      by_cases hrunning : e.isRunning
      · rw [if_pos hrunning]
        exact .stop howner hrunning
      · rw [if_neg hrunning]
        exact .stopAgain howner (Bool.not_eq_true _ ▸ hrunning)
    · cases h
  | join =>
    simp only [step, join] at h
    split at h
    · next howner hworker =>
      obtain rfl := Option.some.inj h
      exact .join howner hworker
    · cases h
  | test =>
    simp only [step, test] at h
    split at h
    · next hworker =>
      obtain rfl := Option.some.inj h
      by_cases hrunning : e.isRunning
      · rw [if_pos hrunning]
        exact .testOn hworker hrunning
      · rw [if_neg hrunning]
        exact .testOff hworker (Bool.not_eq_true _ ▸ hrunning)
    · cases h
  | readInputs =>
    simp only [step, readInputs] at h
    split at h
    · next i hworker =>
      split at h
      · next driver hdriver =>
        split at h
        · next object mem hread =>
          obtain rfl := Option.some.inj h
          exact .readInputs i driver object mem hworker hdriver hread
        · cases h
      · cases h
    · cases h
  | run other => exact runStep_case h
  | writeOutputs =>
    simp only [step, writeOutputs] at h
    split at h
    · next i hworker =>
      split at h
      · next driver hdriver =>
        split at h
        · next object hwrite =>
          obtain rfl := Option.some.inj h
          exact .writeOutputs i driver object hworker hdriver hwrite
        · cases h
      · cases h
    · cases h
  | count =>
    simp only [step, count] at h
    split at h
    · next i hworker =>
      split at h
      · next hi =>
        obtain rfl := Option.some.inj h
        exact .count (hi ▸ hworker)
      · cases h
    · cases h
  | method driver m =>
    obtain rfl := Option.some.inj h
    exact .method driver m

end

/-! ### Who runs when -/

/-- An engine as its constructor leaves it. -/
structure Constructed (e : AslcEngine ι δ) : Prop where
  drivers : e.drivers = []
  cycleCount : e.cycleCount = 0
  isRunning : e.isRunning = false
  owner : e.owner = .idle
  worker : e.worker = .absent
  calls : e.calls = []

/-- The owner and the worker thread: the worker lives from `launch` to `join`,
and the scan is under way while the callback is. -/
structure Shape (e : AslcEngine ι δ) : Prop where
  initializing : ∀ i, e.owner = .initializing i → e.worker = .absent
  idle : e.owner = .idle → e.isRunning = false → e.worker = .absent
  scan : e.worker ≠ .callingBack → e.system.scan = .idle

theorem Constructed.shape {e : AslcEngine ι δ} (h : Constructed e) (hscan : e.system.scan = .idle) :
    e.Shape :=
  ⟨fun _ _ => h.worker, fun _ _ => h.worker, fun _ => hscan⟩

/-- A step of the worker thread, which is there. -/
theorem Shape.worker {e e' : AslcEngine ι δ} (h : e.Shape) (hworker : e.worker ≠ .absent)
    (howner : e'.owner = e.owner) (hrunning : e'.isRunning = e.isRunning)
    (hscan : e'.worker ≠ .callingBack → e'.system.scan = .idle) : e'.Shape := by
  refine ⟨fun i hi => ?_, fun hidle hoff => ?_, hscan⟩
  · rw [howner] at hi
    exact absurd (h.initializing i hi) hworker
  · rw [howner] at hidle
    rw [hrunning] at hoff
    exact absurd (h.idle hidle hoff) hworker

theorem scan_outside {s s' : System} {other : System.Event}
    (hscan : other ≠ .copyCurrent ∧ other ≠ .rule ∧ other ≠ .endCycle)
    (hno : ∀ f, other ≠ .rewrite f) (h : s.step other = some s') : s.Outside s' := by
  cases other with
  | copyCurrent => exact absurd rfl hscan.1
  | rule => exact absurd rfl hscan.2.1
  | endCycle => exact absurd rfl hscan.2.2
  | rewrite f => exact absurd rfl (hno f)
  | parse thread doc =>
    obtain rfl := Option.some.inj h
    exact .parse s thread doc
  | swap thread =>
    simp only [System.step] at h
    split at h
    · have hout := System.Outside.install h
      exact ⟨hout.mem, hout.scan, hout.length, hout.object⟩
    · cases h
  | reload program => exact .install h

/-! ### What the engine calls -/

/-- The time from a `start` to its `stop`: the drivers, and the cycles they saw. -/
structure Session (ι : Type) where
  drivers : List ι
  cycles : Nat

/-- The calls of one whole cycle. -/
def cycleCalls (drivers : List ι) (cycleCount : UInt64) : List (EngineCall ι) :=
  drivers.map .readInputs ++ .callback cycleCount :: drivers.map .writeOutputs

def Session.calls (first : Nat) (session : Session ι) : List (EngineCall ι) :=
  session.drivers.map .initializeDriver ++ (List.range session.cycles).flatMap fun k =>
    cycleCalls session.drivers (UInt64.ofNat (first + k))

/-- The calls of sessions that follow each other; cycles are counted on. -/
def sessionCalls (first : Nat) : List (Session ι) → List (EngineCall ι)
  | [] => []
  | session :: rest => session.calls first ++ sessionCalls (first + session.cycles) rest

def totalCycles (sessions : List (Session ι)) : Nat := (sessions.map Session.cycles).sum

/-- The calls of a cycle, or of a `start`, that has not come to its end yet. -/
def unfinished (e : AslcEngine ι δ) : List (EngineCall ι) :=
  match e.owner with
  | .initializing i => (e.drivers.take i).map .initializeDriver
  | _ =>
    match e.worker with
    | .reading i => (e.drivers.take i).map .readInputs
    | .callingBack => e.drivers.map .readInputs ++ [.callback e.cycleCount]
    | .writing i => e.drivers.map .readInputs ++
        .callback e.cycleCount :: (e.drivers.take i).map .writeOutputs
    | _ => []

structure Called (e : AslcEngine ι δ) (sessions : List (Session ι)) : Prop where
  calls : e.calls = sessionCalls 0 sessions ++ e.unfinished
  cycleCount : e.cycleCount = UInt64.ofNat (totalCycles sessions)
  current : e.worker ≠ .absent → ∃ earlier k, sessions = earlier ++ [⟨e.drivers, k⟩]

theorem sessionCalls_append (first : Nat) (earlier rest : List (Session ι)) :
    sessionCalls first (earlier ++ rest) =
      sessionCalls first earlier ++ sessionCalls (first + totalCycles earlier) rest := by
  induction earlier generalizing first with
  | nil => rfl
  | cons session earlier ih =>
    have hi := ih (first + session.cycles)
    simp only [List.cons_append, sessionCalls, hi, totalCycles, List.map_cons, List.sum_cons,
      Nat.add_assoc, List.append_assoc]

theorem totalCycles_concat (earlier : List (Session ι)) (session : Session ι) :
    totalCycles (earlier ++ [session]) = totalCycles earlier + session.cycles := by
  simp [totalCycles]

theorem sessionCalls_start (sessions : List (Session ι)) (drivers : List ι) :
    sessionCalls 0 (sessions ++ [⟨drivers, 0⟩]) =
      sessionCalls 0 sessions ++ drivers.map .initializeDriver := by
  simp [sessionCalls_append, sessionCalls, Session.calls]

theorem sessionCalls_cycle (earlier : List (Session ι)) (drivers : List ι) (k : Nat) :
    sessionCalls 0 (earlier ++ [⟨drivers, k + 1⟩]) = sessionCalls 0 (earlier ++ [⟨drivers, k⟩]) ++
      cycleCalls drivers (UInt64.ofNat (totalCycles (earlier ++ [⟨drivers, k⟩]))) := by
  simp only [sessionCalls_append, sessionCalls, Session.calls, List.range_succ, List.flatMap_append,
    List.flatMap_cons, List.flatMap_nil, List.append_nil, List.append_assoc, totalCycles_concat,
    Nat.zero_add]

theorem map_take_succ {α β : Type} {l : List α} {i : Nat} {a : α} (h : l[i]? = some a) (f : α → β) :
    (l.take (i + 1)).map f = (l.take i).map f ++ [f a] := by
  rw [List.take_add_one, h, List.map_append]
  rfl

/-- The worker thread went on without the owner, and called `more`. -/
theorem Called.worker {e e' : AslcEngine ι δ} {sessions : List (Session ι)} (h : Called e sessions)
    (hdrivers : e'.drivers = e.drivers) (hcount : e'.cycleCount = e.cycleCount)
    (hpresent : e.worker ≠ .absent) {more : List (EngineCall ι)} (hcalls : e'.calls = e.calls ++ more)
    (hunfinished : e'.unfinished = e.unfinished ++ more) : Called e' sessions := by
  refine ⟨?_, hcount.trans h.cycleCount, fun _ => ?_⟩
  · rw [hcalls, h.calls, hunfinished, List.append_assoc]
  · rw [hdrivers]
    exact h.current hpresent

theorem unfinished_of_worker {e : AslcEngine ι δ} (h : e.Shape) (hworker : e.worker ≠ .absent) :
    e.unfinished = match e.worker with
      | .reading i => (e.drivers.take i).map .readInputs
      | .callingBack => e.drivers.map .readInputs ++ [.callback e.cycleCount]
      | .writing i => e.drivers.map .readInputs ++
          .callback e.cycleCount :: (e.drivers.take i).map .writeOutputs
      | _ => [] := by
  rw [unfinished]
  split
  · next i howner => exact absurd (h.initializing i howner) hworker
  · rfl

/-- The unfinished calls begin the loop of a `start`, or a cycle of the last session. -/
theorem Called.piece {e : AslcEngine ι δ} {sessions : List (Session ι)} (h : Called e sessions)
    (hshape : e.Shape) : e.unfinished <+: e.drivers.map .initializeDriver ∨
      e.unfinished <+: cycleCalls e.drivers e.cycleCount ∧
        ∃ earlier k, sessions = earlier ++ [⟨e.drivers, k⟩] := by
  by_cases habsent : e.worker = .absent
  · left
    rw [unfinished]
    split
    · exact (List.take_prefix _ _).map _
    · rw [habsent]
      exact List.nil_prefix
  · refine .inr ⟨?_, h.current habsent⟩
    rw [unfinished_of_worker hshape habsent, cycleCalls]
    split
    · exact ((List.take_prefix _ _).map _).trans (List.prefix_append _ _)
    · rw [List.prefix_append_right_inj, List.cons_prefix_cons]
      exact ⟨rfl, List.nil_prefix⟩
    · rw [List.prefix_append_right_inj, List.cons_prefix_cons]
      exact ⟨rfl, (List.take_prefix _ _).map _⟩
    · exact List.nil_prefix

/-! ### Over a run -/

section

variable {μ : Type} [DecidableEq ι] [IIODriver δ μ]

theorem Shape.step {e e' : AslcEngine ι δ} {ev : EngineEvent ι μ} (h : e.Shape)
    (hstep : e.step ev = some e') : e'.Shape := by
  cases step_case hstep with
  | addDriver => exact ⟨h.initializing, h.idle, h.scan⟩
  | startAgain => exact h
  | start howner hrunning =>
    have habsent := h.idle howner hrunning
    exact ⟨fun _ _ => habsent, by simp, h.scan⟩
  | initializeDriver i driver howner =>
    have habsent := h.initializing i howner
    exact ⟨fun _ _ => habsent, by simp, h.scan⟩
  | launch howner =>
    have habsent := h.initializing _ howner
    exact ⟨by simp, by simp, fun _ => h.scan (by simp [habsent])⟩
  | stopAgain => exact h
  | stop => exact ⟨by simp, by simp, h.scan⟩
  | join _ hworker => exact ⟨by simp, by simp, fun _ => h.scan (by simp [hworker])⟩
  | testOn hworker =>
    exact h.worker (by simp [hworker]) rfl rfl fun _ => h.scan (by simp [hworker])
  | testOff hworker =>
    exact h.worker (by simp [hworker]) rfl rfl fun _ => h.scan (by simp [hworker])
  | readInputs i _ _ _ hworker =>
    exact h.worker (by simp [hworker]) rfl rfl fun _ => h.scan (by simp [hworker])
  | copyCurrent system hworker =>
    exact h.worker (by simp [hworker]) rfl rfl fun hno => absurd rfl hno
  | rule system hworker =>
    exact h.worker (by simp [hworker]) rfl rfl fun hno => absurd hworker hno
  | endCycle system hworker hend =>
    refine h.worker (by simp [hworker]) rfl rfl fun _ => ?_
    obtain ⟨rfl, _⟩ := System.endCycle_eq hend
    rfl
  | outside other system hno hscan hother =>
    have hout := scan_outside hscan hno hother
    exact ⟨h.initializing, h.idle, fun hworker => hout.scan.trans (h.scan hworker)⟩
  | writeOutputs i _ _ hworker =>
    exact h.worker (by simp [hworker]) rfl rfl fun _ => h.scan (by simp [hworker])
  | count hworker =>
    exact h.worker (by simp [hworker]) rfl rfl fun _ => h.scan (by simp [hworker])
  | method => exact ⟨h.initializing, h.idle, h.scan⟩

theorem Shape.run {e e' : AslcEngine ι δ} {events : List (EngineEvent ι μ)} (h : e.Shape)
    (hrun : e.run events = some e') : e'.Shape := by
  have hall : ∀ ev ∈ events, ev ∈ events := fun _ hev => hev
  exact Machine.run_invariant Shape (fun _ _ _ hs _ hst => hs.step hst) h hall hrun

theorem Called.step {e e' : AslcEngine ι δ} {ev : EngineEvent ι μ} {sessions : List (Session ι)}
    (h : Called e sessions) (hshape : e.Shape) (hstep : e.step ev = some e') :
    ∃ sessions', Called e' sessions' := by
  have hshape' := hshape.step hstep
  cases step_case hstep with
  | addDriver driver howner hworker =>
    refine ⟨sessions, ?_, h.cycleCount, fun hpresent => absurd hworker hpresent⟩
    have hcalls := h.calls
    simp only [unfinished, howner, hworker] at hcalls ⊢
    exact hcalls
  | startAgain => exact ⟨sessions, h⟩
  | start howner hrunning =>
    have habsent := hshape.idle howner hrunning
    refine ⟨sessions, ?_, h.cycleCount, fun hpresent => absurd habsent hpresent⟩
    have hcalls := h.calls
    simp only [unfinished, howner, habsent, List.take_zero, List.map_nil] at hcalls ⊢
    exact hcalls
  | initializeDriver i driver howner hdriver =>
    have habsent := hshape.initializing i howner
    refine ⟨sessions, ?_, h.cycleCount, fun hpresent => absurd habsent hpresent⟩
    simp only [h.calls, unfinished, howner, map_take_succ hdriver, List.append_assoc]
  | launch howner =>
    refine ⟨sessions ++ [⟨e.drivers, 0⟩], ?_, ?_, fun _ => ⟨sessions, 0, rfl⟩⟩
    · simp only [h.calls, unfinished, howner, sessionCalls_start, List.take_length, List.append_nil]
    · rw [totalCycles_concat]
      exact h.cycleCount
  | stopAgain => exact ⟨sessions, h⟩
  | stop howner =>
    refine ⟨sessions, ?_, h.cycleCount, h.current⟩
    simpa only [unfinished, howner] using h.calls
  | join howner hworker =>
    refine ⟨sessions, ?_, h.cycleCount, fun hpresent => absurd rfl hpresent⟩
    simpa only [unfinished, howner, hworker] using h.calls
  | testOn hworker =>
    have hpresent : e.worker ≠ .absent := by simp [hworker]
    refine ⟨sessions, h.worker rfl rfl hpresent (List.append_nil _).symm ?_⟩
    rw [unfinished_of_worker hshape hpresent, unfinished_of_worker hshape' (by simp), hworker]
    rfl
  | testOff hworker =>
    have hpresent : e.worker ≠ .absent := by simp [hworker]
    refine ⟨sessions, h.worker rfl rfl hpresent (List.append_nil _).symm ?_⟩
    rw [unfinished_of_worker hshape hpresent, unfinished_of_worker hshape' (by simp), hworker]
    rfl
  | readInputs i driver object mem hworker hdriver =>
    have hpresent : e.worker ≠ .absent := by simp [hworker]
    refine ⟨sessions, h.worker rfl rfl hpresent rfl ?_⟩
    rw [unfinished_of_worker hshape hpresent, unfinished_of_worker hshape' (by simp), hworker]
    exact map_take_succ hdriver _
  | copyCurrent system hworker =>
    have hpresent : e.worker ≠ .absent := by simp [hworker]
    refine ⟨sessions, h.worker rfl rfl hpresent rfl ?_⟩
    rw [unfinished_of_worker hshape hpresent, unfinished_of_worker hshape' (by simp), hworker]
    simp only [List.take_length]
  | rule system hworker =>
    have hpresent : e.worker ≠ .absent := by simp [hworker]
    refine ⟨sessions, h.worker rfl rfl hpresent (List.append_nil _).symm ?_⟩
    exact (List.append_nil _).symm
  | endCycle system hworker hend =>
    have hpresent : e.worker ≠ .absent := by simp [hworker]
    refine ⟨sessions, h.worker rfl rfl hpresent (List.append_nil _).symm ?_⟩
    rw [unfinished_of_worker hshape hpresent, unfinished_of_worker hshape' (by simp), hworker]
    simp only [List.take_zero, List.map_nil, List.append_nil]
  | outside other system hno hscan hother => exact ⟨sessions, h.calls, h.cycleCount, h.current⟩
  | writeOutputs i driver object hworker hdriver =>
    have hpresent : e.worker ≠ .absent := by simp [hworker]
    refine ⟨sessions, h.worker rfl rfl hpresent rfl ?_⟩
    rw [unfinished_of_worker hshape hpresent, unfinished_of_worker hshape' (by simp), hworker]
    simp only [map_take_succ hdriver, List.append_assoc, List.cons_append]
  | count hworker =>
    have hpresent : e.worker ≠ .absent := by simp [hworker]
    obtain ⟨earlier, k, rfl⟩ := h.current hpresent
    refine ⟨earlier ++ [⟨e.drivers, k + 1⟩], ?_, ?_, fun _ => ⟨earlier, k + 1, rfl⟩⟩
    · rw [unfinished_of_worker hshape' (by simp), sessionCalls_cycle, h.calls,
        unfinished_of_worker hshape hpresent, hworker, h.cycleCount]
      simp only [cycleCalls, List.take_length, List.append_nil]
    · simp only [h.cycleCount, totalCycles_concat, ← Nat.add_assoc, UInt64.ofNat_add]
      rfl
  | method => exact ⟨sessions, h.calls, h.cycleCount, h.current⟩

/-- Whatever the owner and the other threads do, the engine's calls are those of
whole sessions one after another, with the cycles numbered on, and of at most
one unfinished piece, which is gone when the engine has stopped. -/
theorem calls_are_sessions {e₀ e : AslcEngine ι δ} {events : List (EngineEvent ι μ)}
    (h₀ : Constructed e₀) (hscan : e₀.system.scan = .idle) (hrun : e₀.run events = some e) :
    ∃ sessions piece, e.calls = sessionCalls 0 sessions ++ piece ∧
      e.cycleCount = UInt64.ofNat (totalCycles sessions) ∧
      (piece <+: e.drivers.map .initializeDriver ∨ piece <+: cycleCalls e.drivers e.cycleCount ∧
        ∃ earlier k, sessions = earlier ++ [⟨e.drivers, k⟩]) ∧
      (e.owner = .idle → e.isRunning = false → piece = []) := by
  have hstart : e₀.Shape ∧ ∃ sessions, Called e₀ sessions := by
    refine ⟨h₀.shape hscan, [], ?_, h₀.cycleCount, fun hpresent => absurd h₀.worker hpresent⟩
    simp [h₀.calls, unfinished, h₀.owner, h₀.worker, sessionCalls]
  have hall : ∀ ev ∈ events, ev ∈ events := fun _ hev => hev
  obtain ⟨hshape, sessions, hcalled⟩ := Machine.run_invariant
    (fun e : AslcEngine ι δ => e.Shape ∧ ∃ sessions, Called e sessions)
    (fun e ev e' hs _ hst => ⟨hs.1.step hst, hs.2.elim fun _ hc => hc.step hs.1 hst⟩) hstart hall hrun
  refine ⟨sessions, e.unfinished, hcalled.calls, hcalled.cycleCount, hcalled.piece hshape,
    fun howner hoff => ?_⟩
  simp only [unfinished, howner, hshape.idle howner hoff]

end

def wired : AslcEngine Unit ConsoleDriver where
  objects := fun _ => { printChanges := false }
  system := .vacant

/-- From the construction to a `stop` while the callback is running. -/
def stoppedInCycle : List (EngineEvent Unit MockInput) :=
  [.addDriver (), .start, .initializeDriver, .launch, .test, .readInputs, .run .copyCurrent, .stop]

theorem isSome_run_stoppedInCycle : (wired.run stoppedInCycle).isSome = true := by decide +kernel

theorem calls_are_sessions_stoppedInCycle : ∃ e, wired.run stoppedInCycle = some e ∧
    ∃ sessions piece, e.calls = sessionCalls 0 sessions ++ piece ∧
      e.cycleCount = UInt64.ofNat (totalCycles sessions) ∧
      (piece <+: e.drivers.map .initializeDriver ∨ piece <+: cycleCalls e.drivers e.cycleCount ∧
        ∃ earlier k, sessions = earlier ++ [⟨e.drivers, k⟩]) ∧
      (e.owner = .idle → e.isRunning = false → piece = []) := by
  obtain ⟨e, he⟩ := Option.isSome_iff_exists.mp isSome_run_stoppedInCycle
  exact ⟨e, he, calls_are_sessions ⟨rfl, rfl, rfl, rfl, rfl, rfl⟩ rfl he⟩

end AslcEngine

end Openaslc
