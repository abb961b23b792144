import Openaslc.StoredCommit

/-! The deployments table over runs of calls. Its references are not enforced
and no call ends the activity of an earlier row. -/

namespace Openaslc

def Database.Known (db : Database) (sha256 : String) : Prop :=
  (∃ commit ∈ db.commits, commit.sha256 = sha256) ∧
    ∃ snapshot ∈ db.snapshots, snapshot.commitSha256 = sha256

/-- Deployments refer to known commits, and only the last one is active. -/
structure Database.DeploymentsSound (db : Database) : Prop where
  known : ∀ row ∈ db.deployments, db.Known row.commitSha256
  active : ∀ i row, db.deployments[i]? = some row → row.status = "active" →
    i + 1 = db.deployments.length

def ArchiveCall.recorded : ArchiveCall → List DeploymentRow
  | .record .runs now sha256 => [⟨cString sha256, cString (currentTimestamp now), "active"⟩]
  | _ => []

/-- A deployment that is recorded is the first one, of a known commit. -/
def ArchiveCall.DeploysOnce (db : Database) (call : ArchiveCall) : Prop :=
  ∀ row ∈ call.recorded, db.Known row.commitSha256 ∧ db.deployments = []

namespace ArchiveRun

variable {lib : JsonLibrary} {r : ArchiveRun}

theorem step_deployments (lib : JsonLibrary) (r : ArchiveRun) (call : ArchiveCall) :
    (step lib r call).db.deployments = r.db.deployments ++ call.recorded := by
  cases call with
  | commit fates req =>
    simp only [step, ArchiveCall.recorded, List.append_nil]
    cases hrun : req.run lib fates r.db with
    | ok commit db =>
      obtain ⟨text, _, rfl⟩ := (commitConfig_cases lib fates req r.db).of_ok hrun
      simp [Database.withCommit]
    | error e db =>
      obtain ⟨⟨_, hdeployments⟩, _⟩ := commitConfig_error hrun
      exact hdeployments
  | record fate now sha256 => cases fate <;> simp [step, ArchiveCall.recorded, recordDeployment,
      insertStatement, StateExcept.final]
  | history fate limit => simp [step, ArchiveCall.recorded, getCommitHistory_final]
  | snapshot fate sha256 => simp [step, ArchiveCall.recorded, getSnapshot_final]
  | reopen => simp [step, ArchiveCall.recorded, createTables]

theorem StepCase.snapshots_prefix {call : ArchiveCall} {r' : ArchiveRun}
    (h : StepCase lib r call r') : r.db.snapshots <+: r'.db.snapshots := by
  cases h with
  | same _ _ hsnapshots => simp [hsnapshots]
  | orphaned => exact List.prefix_refl _
  | done => exact List.prefix_append _ _

theorem StepCase.known {call : ArchiveCall} {r' : ArchiveRun} (h : StepCase lib r call r')
    {sha256 : String} (hknown : r.db.Known sha256) : r'.db.Known sha256 := by
  obtain ⟨⟨commit, hcommit, hid⟩, snapshot, hsnapshot, hid'⟩ := hknown
  exact ⟨⟨commit, h.commits_prefix.subset hcommit, hid⟩,
    snapshot, h.snapshots_prefix.subset hsnapshot, hid'⟩

theorem recorded_cases (call : ArchiveCall) :
    call.recorded = [] ∨ ∃ row, call.recorded = [row] ∧ row.status = "active" := by
  unfold ArchiveCall.recorded
  split
  · exact .inr ⟨_, rfl, rfl⟩
  · exact .inl rfl

def AllActive (r : ArchiveRun) : Prop := ∀ row ∈ r.db.deployments, row.status = "active"

theorem AllActive.step (h : AllActive r) (call : ArchiveCall) : AllActive (step lib r call) := by
  intro row hrow
  rw [step_deployments] at hrow
  rcases List.mem_append.mp hrow with hrow | hrow
  · exact h row hrow
  · rcases recorded_cases call with hnone | ⟨new, hnew, hstatus⟩
    · simp [hnone] at hrow
    · rw [hnew, List.mem_singleton] at hrow
      rw [hrow, hstatus]

theorem recorded_tables {call : ArchiveCall} (h : call.recorded ≠ []) :
    (step lib r call).db.commits = r.db.commits ∧ (step lib r call).db.snapshots = r.db.snapshots := by
  cases call with
  | record fate now sha256 => exact recordDeployment_tables fate now sha256 r.db
  | _ => simp [ArchiveCall.recorded] at h

theorem sound_step_iff (hactive : AllActive r) (hsound : r.db.DeploymentsSound) (call : ArchiveCall) :
    (step lib r call).db.DeploymentsSound ↔ call.DeploysOnce r.db := by
  have hrows := step_deployments lib r call
  rcases recorded_cases call with hnone | ⟨row, hrow, _⟩
  · rw [hnone, List.append_nil] at hrows
    have honce : call.DeploysOnce r.db := by simp [ArchiveCall.DeploysOnce, hnone]
    refine iff_of_true ⟨?_, ?_⟩ honce
    · rw [hrows]
      exact fun row hrow => (step_cases lib r call).known (hsound.known row hrow)
    · rw [hrows]
      exact hsound.active
  obtain ⟨hcommits, hsnapshots⟩ := @recorded_tables lib r call (by simp [hrow])
  have hknown : ∀ sha256, (step lib r call).db.Known sha256 ↔ r.db.Known sha256 := by
    intro sha256
    rw [Database.Known, hcommits, hsnapshots]
    rfl
  rw [hrow] at hrows
  simp only [ArchiveCall.DeploysOnce, hrow, List.mem_singleton, forall_eq]
  constructor
  · intro h
    refine ⟨(hknown _).mp (h.known row (by simp [hrows])), ?_⟩
    cases hfirst : r.db.deployments with
    | nil => rfl
    | cons first rest =>
      -- the oldest row is still active and is not the last
      have hstatus := hactive first (by simp [hfirst])
      have hlast := h.active 0 first (by simp [hrows, hfirst]) hstatus
      simp [hrows, hfirst] at hlast
  · rintro ⟨hid, hempty⟩
    rw [hempty, List.nil_append] at hrows
    constructor
    · rw [hrows]
      simpa [hknown] using hid
    · intro i row' hi _
      rw [hrows] at hi ⊢
      have hlt := (List.getElem?_eq_some_iff.mp hi).1
      simp only [List.length_singleton] at hlt ⊢
      omega

theorem sound_along_iff (hactive : AllActive r) (hsound : r.db.DeploymentsSound)
    (calls : List ArchiveCall) :
    (∀ done, done <+: calls → (run lib r done).db.DeploymentsSound) ↔
      Along lib (fun db call => call.DeploysOnce db) r calls := by
  induction calls generalizing r with
  | nil =>
    refine iff_of_true ?_ trivial
    intro done hdone
    rw [List.prefix_nil.mp hdone]
    exact hsound
  | cons call rest ih =>
    have hstep := @sound_step_iff lib r hactive hsound call
    constructor
    · intro h
      have hnext : (step lib r call).db.DeploymentsSound := h [call] (by simp)
      refine ⟨hstep.mp hnext, (ih (hactive.step call) hnext).mp fun done hdone => ?_⟩
      exact h (call :: done) (List.cons_prefix_cons.mpr ⟨rfl, hdone⟩)
    · rintro ⟨honce, hrest⟩ done hdone
      have hall := (ih (hactive.step call) (hstep.mpr honce)).mpr hrest
      cases done with
      | nil => exact hsound
      | cons first done =>
        obtain ⟨rfl, hdone'⟩ := List.cons_prefix_cons.mp hdone
        exact hall done hdone'

/-- In every state of a run the deployments are sound exactly when the run
records at most one deployment, of a commit known by then. -/
theorem deployments_sound_iff (lib : JsonLibrary) (calls : List ArchiveCall) :
    (∀ done, done <+: calls → (run lib {} done).db.DeploymentsSound) ↔
      Along lib (fun db call => call.DeploysOnce db) {} calls :=
  sound_along_iff (by simp [AllActive]) ⟨by simp, by simp⟩ calls

/-- The row names no commit, and a second one does not end its activity. -/
theorem deployments_not_sound :
    ¬ (run (.plain [noRules]) {} [.record .runs 0 "unknown"]).db.DeploymentsSound ∧
      (run (.plain [noRules]) {} [.record .runs 0 "unknown",
        .record .runs 1 "unknown"]).db.deployments.map DeploymentRow.status = ["active", "active"] := by
  refine ⟨fun h => ?_, rfl⟩
  obtain ⟨⟨commit, hcommit, _⟩, _⟩ := h.known _ (List.mem_singleton_self _)
  cases hcommit

end ArchiveRun

end Openaslc
