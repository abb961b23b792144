import Openaslc.AslcEngine

/-! What the console of a mock driver tells of the outputs while the engine
runs: between two cycles its lines since the launch determine %Q. -/

namespace Openaslc

open ChangeLog

namespace ConsoleDriver

/-- Nothing was printed, and the outputs to compare with are the same. -/
structure SameConsole (driver driver' : ConsoleDriver) : Prop where
  console : driver'.console = driver.console
  outputs : driver'.previousOutputs = driver.previousOutputs
  printChanges : driver'.printChanges = driver.printChanges

theorem SameConsole.refl (driver : ConsoleDriver) : SameConsole driver driver := ⟨rfl, rfl, rfl⟩

theorem sameConsole_method (m : MockInput) (driver : ConsoleDriver) :
    SameConsole driver (method m driver) := by
  cases m <;> exact ⟨rfl, rfl, rfl⟩

theorem zeros_initializeDriver {driver : ConsoleDriver}
    (hsize : driver.previousOutputs.length = outputSize) :
    (initializeDriver driver).2.previousOutputs = List.replicate outputSize 0 := by
  rw [initializeDriver, ← hsize]
  exact List.map_const' ..

end ConsoleDriver

open ConsoleDriver

namespace AslcEngine

variable {ι : Type} {e₀ e e' : AslcEngine ι ConsoleDriver}

/-! ### From the construction on -/

/-- Every driver compares all outputs, and prints if it did so at first; the
loop of a `start` clears one driver after another. -/
structure Compared (e₀ e : AslcEngine ι ConsoleDriver) : Prop where
  shape : e.Shape
  size : ∀ driver, (e.objects driver).previousOutputs.length = outputSize
  printChanges : ∀ driver, (e.objects driver).printChanges = (e₀.objects driver).printChanges
  cleared : ∀ i, e.owner = .initializing i → ∀ driver ∈ e.drivers.take i,
    (e.objects driver).previousOutputs = List.replicate outputSize 0

theorem Compared.keep (h : Compared e₀ e) (hshape : e'.Shape)
    (hobjects : ∀ driver, SameConsole (e.objects driver) (e'.objects driver))
    (howner : ∀ i, e'.owner = .initializing i → i = 0 ∨ e.owner = .initializing i ∧
      e'.drivers = e.drivers) : Compared e₀ e' := by
  refine ⟨hshape, fun driver => ?_, fun driver => ?_, fun i hi driver hdriver => ?_⟩
  · rw [(hobjects driver).outputs]
    exact h.size driver
  · exact (hobjects driver).printChanges.trans (h.printChanges driver)
  · obtain rfl | ⟨hi', hdrivers⟩ := howner i hi
    · cases hdriver
    · rw [(hobjects driver).outputs]
      rw [hdrivers] at hdriver
      exact h.cleared i hi' driver hdriver

theorem mem_take_succ {l : List ι} {i : Nat} {a b : ι} (h : l[i]? = some a) :
    b ∈ l.take (i + 1) ↔ b ∈ l.take i ∨ b = a := by
  rw [List.take_add_one, h]
  simp

/-- Between cycles the driver's last outputs are those of the image; `counted`
says that there was a cycle at all. -/
def UpToDate (driver : ι) (counted : Prop) (e : AslcEngine ι ConsoleDriver) : Prop :=
  match e.worker with
  | .callingBack => True
  | .writing i => driver ∈ e.drivers.take i →
    (e.objects driver).previousOutputs = areaSnapshot e.system.mem .output
  | _ => counted → (e.objects driver).previousOutputs = areaSnapshot e.system.mem .output

theorem UpToDate.keep {driver : ι} {counted counted' : Prop} (h : UpToDate driver counted e)
    (hcounted : counted' → counted) (hworker : e'.worker = e.worker) (hdrivers : e'.drivers = e.drivers)
    (houtputs : (e'.objects driver).previousOutputs = (e.objects driver).previousOutputs)
    (hmem : e'.system.mem.outputArea = e.system.mem.outputArea) : UpToDate driver counted' e' := by
  have hsnapshot : areaSnapshot e'.system.mem .output = areaSnapshot e.system.mem .output :=
    congrArg List.ofFn hmem
  rw [UpToDate] at h ⊢
  rw [hworker, hdrivers, houtputs, hsnapshot]
  split
  · trivial
  · next i hi =>
    rw [hi] at h
    exact h
  · next hno hno' =>
    intro hc
    split at h
    · next hi => exact absurd hi hno
    · next i hi => exact absurd hi (hno' i)
    · exact h (hcounted hc)

variable [DecidableEq ι]

theorem update_sameConsole {objects : ι → ConsoleDriver} {other : ι} {object : ConsoleDriver}
    (h : SameConsole (objects other) object) (driver : ι) :
    SameConsole (objects driver) (Function.update objects other object driver) :=
  (Function.forall_update_iff objects fun d updated => SameConsole (objects d) updated).mpr
    ⟨h, fun _ _ => .refl _⟩ driver

theorem objects_step {ev : EngineEvent ι MockInput} (hinit : ev ≠ .initializeDriver)
    (hwrite : ev ≠ .writeOutputs) (hstep : e.step ev = some e') (driver : ι) :
    SameConsole (e.objects driver) (e'.objects driver) := by
  cases step_case hstep with
  | initializeDriver => exact absurd rfl hinit
  | writeOutputs => exact absurd rfl hwrite
  | readInputs i other object mem _ _ hread =>
    obtain ⟨rfl, _⟩ := readInputs_inv hread
    exact update_sameConsole (.refl _) driver
  | method other m => exact update_sameConsole (sameConsole_method m _) driver
  | _ => exact .refl _

theorem owner_step {ev : EngineEvent ι MockInput} (hinit : ev ≠ .initializeDriver)
    (hstep : e.step ev = some e') {i : Nat} (hi : e'.owner = .initializing i) :
    i = 0 ∨ e.owner = .initializing i ∧ e'.drivers = e.drivers := by
  cases step_case hstep with
  | initializeDriver => exact absurd rfl hinit
  | addDriver other howner => exact absurd (howner.symm.trans hi) (by simp)
  | start => exact .inl (EngineOwner.initializing.inj hi).symm
  | launch => exact absurd hi (by simp)
  | stop => exact absurd hi (by simp)
  | join => exact absurd hi (by simp)
  | _ => exact .inr ⟨hi, rfl⟩

theorem Compared.step {ev : EngineEvent ι MockInput} (h : Compared e₀ e)
    (hstep : e.step ev = some e') : Compared e₀ e' := by
  have hshape := h.shape.step hstep
  by_cases hinit : ev = .initializeDriver
  · subst hinit
    cases step_case hstep with
    | initializeDriver i other howner hother =>
      have hzero := zeros_initializeDriver (h.size other)
      have hlength := (congrArg List.length hzero).trans List.length_replicate
      refine ⟨hshape, ?_, ?_, fun k hk driver hmem => ?_⟩
      · exact (Function.forall_update_iff _ fun _ (object : ConsoleDriver) =>
          object.previousOutputs.length = outputSize).mpr ⟨hlength, fun d _ => h.size d⟩
      · exact (Function.forall_update_iff _ fun d (object : ConsoleDriver) =>
          object.printChanges = (e₀.objects d).printChanges).mpr
            ⟨h.printChanges other, fun d _ => h.printChanges d⟩
      · obtain rfl : i + 1 = k := EngineOwner.initializing.inj hk
        have hall := (Function.forall_update_iff e.objects fun d object => d ∈ e.drivers.take (i + 1) →
          object.previousOutputs = List.replicate outputSize 0).mpr ⟨fun _ => hzero, fun d hd hd' =>
            h.cleared i howner d (((mem_take_succ hother).mp hd').resolve_right hd)⟩
        exact hall driver hmem
  · by_cases hwrite : ev = .writeOutputs
    · subst hwrite
      cases step_case hstep with
      | writeOutputs i other object hworker hother hcall =>
        obtain ⟨houtputs, hprint⟩ := writeOutputs_outputs (h.size other) hcall
        have hsize : object.previousOutputs.length = outputSize := by
          rw [houtputs, length_areaSnapshot_output]
        refine ⟨hshape, ?_, ?_, fun k hk => ?_⟩
        · exact (Function.forall_update_iff _ fun _ (object : ConsoleDriver) =>
            object.previousOutputs.length = outputSize).mpr
              ⟨hsize, fun d _ => h.size d⟩
        · exact (Function.forall_update_iff _ fun d (object : ConsoleDriver) =>
            object.printChanges = (e₀.objects d).printChanges).mpr
              ⟨hprint.trans (h.printChanges other), fun d _ => h.printChanges d⟩
        · exact absurd (h.shape.initializing k hk) (by simp [hworker])
    · exact h.keep hshape (objects_step hinit hwrite hstep) fun i hi => owner_step hinit hstep hi

/-! ### From a launch on -/

theorem UpToDate.step {driver : ι} {counted : Prop} (h : UpToDate driver counted e)
    (hc : Compared e₀ e) (hmember : driver ∈ e.drivers) {ev : EngineEvent ι MockInput}
    (hinit : ev ≠ .initializeDriver) (hstep : e.step ev = some e') :
    UpToDate driver (counted ∨ ev = .count) e' := by
  cases step_case hstep with
  | initializeDriver => exact absurd rfl hinit
  | addDriver other _ hworker => simpa [UpToDate, hworker] using h
  | launch howner =>
    have habsent := hc.shape.initializing _ howner
    simpa [UpToDate, habsent] using h
  | join _ hworker => simpa [UpToDate, hworker] using h
  | testOn hworker => simpa [UpToDate, hworker] using h
  | testOff hworker => simpa [UpToDate, hworker] using h
  | copyCurrent => trivial
  | rule system hworker => simp [UpToDate, hworker]
  | endCycle => simp [UpToDate]
  | count hworker =>
    have hlast : (e.objects driver).previousOutputs = areaSnapshot e.system.mem .output := by
      simp only [UpToDate, hworker, List.take_length] at h
      exact h hmember
    exact fun _ => hlast
  | readInputs i other object mem hworker hother hread =>
    obtain ⟨rfl, rfl⟩ := readInputs_inv hread
    have hsame := update_sameConsole (SameConsole.refl (e.objects other)) driver
    simp only [UpToDate, hworker] at h
    intro hcounted
    rw [hsame.outputs]
    exact h (by simpa using hcounted)
  | writeOutputs i other object hworker hother hcall =>
    intro hmem
    obtain ⟨houtputs, _⟩ := writeOutputs_outputs (hc.size other) hcall
    simp only [UpToDate, hworker] at h
    have hall := (Function.forall_update_iff e.objects fun d (object : ConsoleDriver) =>
      d = driver → object.previousOutputs = areaSnapshot e.system.mem .output).mpr ⟨fun _ => houtputs, by
        rintro d hd rfl
        exact h (((mem_take_succ hother).mp hmem).resolve_right hd)⟩
    exact hall driver rfl
  | outside other system hno hscan hsystem =>
    refine h.keep (by simp) rfl rfl rfl ?_
    rw [(scan_outside hscan hno hsystem).mem]
  | method other m =>
    have hsame := update_sameConsole (sameConsole_method m (e.objects other)) driver
    exact h.keep (by simp) rfl rfl hsame.outputs rfl
  | startAgain => exact h.keep (by simp) rfl rfl rfl rfl
  | start => exact h.keep (by simp) rfl rfl rfl rfl
  | stopAgain => exact h.keep (by simp) rfl rfl rfl rfl
  | stop => exact h.keep (by simp) rfl rfl rfl rfl

theorem printed_step {driver : ι} {first : ConsoleDriver} {log : List (Change UInt8)}
    (h : Printed first (e.objects driver) log) (hc : Compared e₀ e) {ev : EngineEvent ι MockInput}
    (hinit : ev ≠ .initializeDriver) (hstep : e.step ev = some e') :
    ∃ log', Printed first (e'.objects driver) log' := by
  by_cases hwrite : ev = .writeOutputs
  · subst hwrite
    cases step_case hstep with
    | writeOutputs i other object hworker hother hcall =>
      by_cases hd : driver = other
      · subst hd
        obtain ⟨log', hlog⟩ := writeOutputs_printed (hc.size driver) h.printChanges hcall
        refine ⟨log ++ log', ?_⟩
        have hall := h.append hlog
        simpa only [Function.update_self] using hall
      · refine ⟨log, ?_⟩
        simpa only [Function.update_of_ne hd] using h
  · have hsame := objects_step hinit hwrite hstep driver
    exact ⟨log, h.silent hsame.console hsame.outputs hsame.printChanges⟩

theorem drivers_mono {ev : EngineEvent ι MockInput} (hstep : e.step ev = some e') {driver : ι}
    (h : driver ∈ e.drivers) : driver ∈ e'.drivers := by
  cases step_case hstep with
  | addDriver other => exact List.mem_append_left _ h
  | _ => exact h

/-- A driver since the launch that left the engine in `e₁`. -/
structure Reports (e₀ e₁ : AslcEngine ι ConsoleDriver) (driver : ι) (counted : Prop)
    (e : AslcEngine ι ConsoleDriver) : Prop where
  compared : Compared e₀ e
  member : driver ∈ e.drivers
  printed : ∃ log, Printed (e₁.objects driver) (e.objects driver) log
  upToDate : UpToDate driver counted e

theorem Reports.run {e₁ : AslcEngine ι ConsoleDriver} {driver : ι} {later : List (EngineEvent ι MockInput)}
    (h : Reports e₀ e₁ driver False e₁) (hinit : .initializeDriver ∉ later)
    (hrun : e₁.run later = some e) : Reports e₀ e₁ driver (.count ∈ later) e := by
  induction later using List.reverseRecOn generalizing e with
  | nil =>
    obtain rfl : e₁ = e := by simpa using hrun
    simpa using h
  | append_singleton later ev ih =>
    obtain ⟨m, hm, hlast⟩ := Machine.run_concat.mp hrun
    have hbefore := ih (fun hmem => hinit (List.mem_append_left _ hmem)) hm
    have hne : ev ≠ .initializeDriver := fun heq => hinit (by simp [heq])
    obtain ⟨log, hlog⟩ := hbefore.printed
    refine ⟨hbefore.compared.step hlast, drivers_mono hlast hbefore.member,
      printed_step hlog hbefore.compared hne hlast, ?_⟩
    have hcount := hbefore.upToDate.step hbefore.compared hbefore.member hne hlast
    simpa [eq_comm] using hcount

end AslcEngine

/-- The outputs that the lines printed since a launch determine. -/
noncomputable def readConsole (lines : List String) : List UInt8 :=
  replay (List.replicate outputSize 0) (lines.map (Function.invFun outputChangeLine))

theorem readConsole_map (log : List (Change UInt8)) :
    readConsole (log.map outputChangeLine) = replay (List.replicate outputSize 0) log := by
  have hinv := Function.leftInverse_invFun outputChangeLine_injective
  rw [readConsole, List.map_map, hinv.comp_eq_id, List.map_id]

namespace AslcEngine

variable {ι : Type} [DecidableEq ι] {e₀ e₁ e : AslcEngine ι ConsoleDriver}

theorem compared_run (h₀ : Constructed e₀) (hscan : e₀.system.scan = .idle)
    (hsize : ∀ d, (e₀.objects d).previousOutputs.length = outputSize)
    {events : List (EngineEvent ι MockInput)} (hrun : e₀.run events = some e) : Compared e₀ e := by
  have hstart : Compared e₀ e₀ :=
    ⟨h₀.shape hscan, hsize, fun _ => rfl, fun i hi => absurd (h₀.owner.symm.trans hi) (by simp)⟩
  have hall : ∀ ev ∈ events, ev ∈ events := fun _ hev => hev
  exact Machine.run_invariant (Compared e₀) (fun _ _ _ hs _ hst => hs.step hst) hstart hall hrun

/-- While the engine that a `start` launched goes through cycles, with whatever
programs, inputs and other mock drivers, the lines that a printing driver has
written since then determine %Q between any two cycles. -/
theorem console_tells_outputs {driver : ι} (h₀ : Constructed e₀) (hscan : e₀.system.scan = .idle)
    (hsize : ∀ d, (e₀.objects d).previousOutputs.length = outputSize)
    (hprint : (e₀.objects driver).printChanges = true)
    {earlier later : List (EngineEvent ι MockInput)} (hlaunch : e₀.run (earlier ++ [.launch]) = some e₁)
    (hdriver : driver ∈ e₁.drivers) (hrun : e₁.run later = some e)
    (hinit : .initializeDriver ∉ later) (hcount : .count ∈ later)
    (hworker : e.worker ≠ .callingBack ∧ ∀ i, e.worker ≠ .writing i) :
    ∃ lines, (e.objects driver).console = (e₁.objects driver).console ++ lines ∧
      readConsole lines = areaSnapshot e.system.mem .output := by
  obtain ⟨m, hm, hlast⟩ := Machine.run_concat.mp hlaunch
  have hm' := compared_run h₀ hscan hsize hm
  have hcompared := hm'.step hlast
  have hzeros : (e₁.objects driver).previousOutputs = List.replicate outputSize 0 ∧
      e₁.worker = .testing := by
    cases step_case hlast with
    | launch howner =>
      have hmem : driver ∈ m.drivers.take m.drivers.length := by rwa [List.take_length]
      exact ⟨hm'.cleared _ howner driver hmem, rfl⟩
  have hstart : Reports e₀ e₁ driver False e₁ := by
    refine ⟨hcompared, hdriver, ⟨[], ?_, rfl, hcompared.size driver, ?_⟩, ?_⟩
    · exact (List.append_nil _).symm
    · exact (hcompared.printChanges driver).trans hprint
    · simp [UpToDate, hzeros.2]
  have hreports := hstart.run hinit hrun
  obtain ⟨log, hlog⟩ := hreports.printed
  refine ⟨log.map outputChangeLine, hlog.console, ?_⟩
  have hcurrent := hreports.upToDate
  rw [UpToDate] at hcurrent
  rw [readConsole_map, ← hzeros.1, ← hlog.outputs]
  split at hcurrent
  · next hw => exact absurd hw hworker.1
  · next i hw => exact absurd hw (hworker.2 i)
  · exact hcurrent hcount

/-- The program of `copyRules` is current from the construction on. -/
def printing : AslcEngine Unit ConsoleDriver where
  objects := fun _ => {}
  system := Telemetry.loaded.system

def launched : AslcEngine Unit ConsoleDriver where
  objects := Function.update printing.objects () (initializeDriver (printing.objects ())).2
  system := Telemetry.loaded.system
  drivers := [()]
  isRunning := true
  worker := .testing
  calls := [.initializeDriver ()]

theorem run_launched : printing.run ([.addDriver (), .start, .initializeDriver] ++ [.launch]) =
    some launched := rfl

/-- A cycle with %I0.0 on, up to the calls of `write_outputs`. -/
def inputCopied : List (EngineEvent Unit MockInput) :=
  [.method () (.setBit 0 0 true), .test, .readInputs, .run .copyCurrent, .run .rule, .run .endCycle]

theorem worker_inputCopied : ((launched.run inputCopied).map fun e =>
    decide (e.worker = .writing 0 ∧ e.drivers = [()] ∧
      e.system.mem.outputArea ⟨0, getSize_pos .output⟩ = 1)) = some true := by decide +kernel

/-- The line of the changed output byte is among them. -/
theorem console_tells_outputs_firstCycle : ∃ e,
    launched.run (inputCopied ++ [.writeOutputs, .count]) = some e ∧
    ∃ lines, lines ≠ [] ∧ (e.objects ()).console = (launched.objects ()).console ++ lines ∧
      readConsole lines = areaSnapshot e.system.mem .output := by
  obtain ⟨m, hm, hdecide⟩ := Option.map_eq_some_iff.mp worker_inputCopied
  obtain ⟨hworker, hdrivers, hbyte⟩ := of_decide_eq_true hdecide
  have hsize : ∀ d, (printing.objects d).previousOutputs.length = outputSize := fun _ =>
    List.length_replicate
  have hcompared := compared_run ⟨rfl, rfl, rfl, rfl, rfl, rfl⟩ rfl hsize
    (Machine.run_append.mpr ⟨_, run_launched, hm⟩)
  have hcall : IIODriver.writeOutputs (m.objects ()) m.system.mem = _ :=
    writeOutputs_eq (hcompared.size ()) m.system.mem
  have hwrite : ∃ e, m.run [.writeOutputs, .count] = some e ∧ e.worker = .testing ∧
      e.system.mem = m.system.mem := by
    simp only [run, Machine.run_cons, Machine.run_nil, step, writeOutputs, hworker, hcall, count,
      hdrivers]
    exact ⟨_, ⟨_, rfl, _, rfl, rfl⟩, rfl, rfl⟩
  obtain ⟨e, he, htesting, hmem⟩ := hwrite
  have hrun := Machine.run_append.mpr ⟨m, hm, he⟩
  have hdriver : () ∈ launched.drivers := by simp [launched]
  obtain ⟨lines, hconsole, hread⟩ := console_tells_outputs ⟨rfl, rfl, rfl, rfl, rfl, rfl⟩ rfl hsize
    rfl run_launched hdriver hrun (by simp [inputCopied]) (by simp [inputCopied]) (by simp [htesting])
  refine ⟨e, hrun, lines, fun hnone => ?_, hconsole, hread⟩
  have hsame := congrArg (·[0]?) hread
  have hzero : (readConsole lines)[0]? = some 0 := by
    rw [hnone, readConsole, List.map_nil, replay_nil, List.getElem?_replicate_of_lt (by decide)]
  have hone : (areaSnapshot e.system.mem .output)[0]? = some 1 := by
    rw [areaSnapshot, List.getElem?_ofFn, dif_pos (getSize_pos .output), hmem]
    exact congrArg some hbyte
  rw [hzero, hone] at hsame
  exact absurd (Option.some.inj hsame) (by decide)

end AslcEngine

end Openaslc
