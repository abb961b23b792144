import Openaslc.CommitHistory

/-! What a commit leaves behind when one of its statements fails. -/

namespace Openaslc

/-- A call that throws leaves both tables as they were, except where the
commits row was in before the snapshots row failed. -/
theorem commitConfig_atomic_iff (lib : JsonLibrary) (fates : CommitFates) (req : CommitRequest)
    (db : Database) :
    (∀ e db', req.run lib fates db = .error e db' →
      db'.commits = db.commits ∧ db'.snapshots = db.snapshots) ↔
      ∀ text, ¬ Orphans lib fates req db text := by
  have hcase := commitConfig_cases lib fates req db
  generalize req.run lib fates db = result at hcase
  cases hcase with
  | refused hnot =>
    refine ⟨fun _ => hnot, fun _ e db' h => ?_⟩
    cases h
    exact ⟨rfl, rfl⟩
  | orphaned horphans =>
    refine ⟨fun h => ?_, fun h => absurd horphans (h _)⟩
    have hcommits := (h _ _ rfl).1
    simpa using congrArg List.length hcommits
  | done hdump hruns _ hsnapshot =>
    exact ⟨fun _ => not_orphans hdump hruns hsnapshot, fun _ e db' h => by cases h⟩

namespace ArchiveRun

variable {lib : JsonLibrary} {r : ArchiveRun}

def AllRestorable (lib : JsonLibrary) (db : Database) : Prop :=
  ∀ limit history, getCommitHistory .runs limit db = .ok history db →
    ∀ info ∈ history, ∃ doc, getSnapshot lib .runs info.sha256 db = .ok doc db

def NoOrphans (lib : JsonLibrary) (r : ArchiveRun) (calls : List ArchiveCall) : Prop :=
  Along lib (fun db call => ¬ call.Orphans lib db) r calls

theorem allRestorable_of_noOrphans {calls : List ArchiveCall} (h : NoOrphans lib {} calls)
    (hparse : ∀ fates req, ArchiveCall.commit fates req ∈ calls → ∀ text,
      lib.dump req.payload = .ok text → ∃ doc, lib.parse text = .ok doc) :
    AllRestorable lib (run lib {} calls).db := by
  have hkept : Kept lib (run lib {} calls) :=
    run_invariant (Kept lib) (fun _ _ _ hr hnot hcase => hr.step hnot hcase) (kept_empty lib) h
  intro limit history hhistory info hinfo
  cases hhistory
  have hrow : info ∈ (run lib {} calls).db.commits := by
    simpa using mem_of_mem_limited hinfo
  rw [hkept.commits] at hrow
  obtain ⟨c, hc, rfl⟩ := List.mem_map.mp hrow
  obtain ⟨row, _, _, hdump⟩ := hkept.snapshot_of_mem hc
  obtain ⟨fates, req, hcall, hpayload⟩ := committed_payload hc
  obtain ⟨doc, hdoc⟩ := hparse fates req hcall row.payload (hpayload ▸ hdump)
  refine ⟨doc, hkept.ids c hc ▸ hkept.getSnapshot hc fun text htext => ?_⟩
  rw [hdump] at htext
  cases htext
  exact hdoc

/-! ### An orphan stays one -/

structure Missing (id : String) (r : ArchiveRun) : Prop where
  bound : cString id = id
  commit : ∃ row ∈ r.db.commits, row.sha256 = id
  snapshot : ∀ row ∈ r.db.snapshots, row.commitSha256 ≠ id

theorem Missing.step {id : String} (h : Missing id r) {call : ArchiveCall} {r' : ArchiveRun}
    (hcase : StepCase lib r call r') : Missing id r' := by
  obtain ⟨hbound, ⟨row, hrow, hid⟩, hsnapshot⟩ := h
  cases hcase with
  | same _ hcommits hsnapshots => exact ⟨hbound, ⟨row, hcommits ▸ hrow, hid⟩, hsnapshots ▸ hsnapshot⟩
  | orphaned => exact ⟨hbound, ⟨row, List.mem_append_left _ hrow, hid⟩, hsnapshot⟩
  | @done fates req text commit hmade _ hdump hfresh =>
    refine ⟨hbound, ⟨row, List.mem_append_left _ hrow, hid⟩, fun s hs => ?_⟩
    rcases List.mem_append.mp hs with hs | hs
    · exact hsnapshot s hs
    · have hnew : commit.row.sha256 = commit.sha256 := hmade ▸ row_sha256 req fates.head text r.db
      rw [List.mem_singleton.mp hs]
      exact fun he => hfresh row hrow (hid.trans (hnew ▸ he.symm))

theorem Missing.run {id : String} (h : Missing id r) (calls : List ArchiveCall) :
    Missing id (run lib r calls) :=
  run_invariant (Missing id) (fun _ _ _ hr _ hcase => hr.step hcase) h
    (along_of_forall lib r fun _ _ => trivial)

theorem Missing.not_restorable {id : String} (h : Missing id r) : ¬ AllRestorable lib r.db := by
  intro hall
  obtain ⟨hbound, ⟨row, hrow, rfl⟩, hsnapshot⟩ := h
  obtain ⟨doc, hdoc⟩ := hall (-1) r.db.commits.reverse rfl row (List.mem_reverse.mpr hrow)
  have hfind : findSnapshot .runs row.sha256 r.db = none := by
    rw [findSnapshot, List.find?_eq_none, hbound]
    simpa using hsnapshot
  simp only [getSnapshot, hfind] at hdoc
  cases hdoc

def Referenced (r : ArchiveRun) : Prop :=
  ∀ row ∈ r.db.snapshots, ∃ row' ∈ r.db.commits, row'.sha256 = row.commitSha256

theorem Referenced.step (h : Referenced r) {call : ArchiveCall} {r' : ArchiveRun}
    (hcase : StepCase lib r call r') : Referenced r' := by
  cases hcase with
  | same _ hcommits hsnapshots =>
    intro s hs
    obtain ⟨row, hrow, hid⟩ := h s (hsnapshots ▸ hs)
    exact ⟨row, hcommits ▸ hrow, hid⟩
  | orphaned =>
    intro s hs
    obtain ⟨row, hrow, hid⟩ := h s hs
    exact ⟨row, List.mem_append_left _ hrow, hid⟩
  | done =>
    intro s hs
    rcases List.mem_append.mp hs with hs | hs
    · obtain ⟨row, hrow, hid⟩ := h s hs
      exact ⟨row, List.mem_append_left _ hrow, hid⟩
    · rw [List.mem_singleton.mp hs]
      exact ⟨_, List.mem_append_right _ (List.mem_singleton_self _), rfl⟩

theorem referenced_run (lib : JsonLibrary) (calls : List ArchiveCall) :
    Referenced (ArchiveRun.run lib {} calls) :=
  run_invariant Referenced (fun _ _ _ hr _ hcase => hr.step hcase) (fun row hrow => by cases hrow)
    (along_of_forall lib {} fun _ _ => trivial)

theorem Referenced.missing (h : Referenced r) {call : ArchiveCall} (horphans : call.Orphans lib r.db) :
    ∃ id, Missing id (ArchiveRun.step lib r call) := by
  have hcase := step_cases lib r call
  generalize ArchiveRun.step lib r call = r' at hcase
  cases hcase with
  | same hnot => exact absurd horphans hnot
  | @orphaned fates req text ho =>
    have hid := row_sha256 req fates.head text r.db
    refine ⟨(req.commit fates.head text r.db).sha256, hid,
      ⟨_, List.mem_append_right _ (List.mem_singleton_self _), hid⟩, fun s hs he => ?_⟩
    obtain ⟨row, hrow, hrow'⟩ := h s hs
    exact ho.fresh row hrow (hrow'.trans he)
  | done _ hnot => exact absurd horphans hnot

theorem noOrphans_of_allRestorable (h : Referenced r) {calls : List ArchiveCall}
    (hall : AllRestorable lib (run lib r calls).db) : NoOrphans lib r calls := by
  induction calls generalizing r with
  | nil => trivial
  | cons call rest ih =>
    refine ⟨fun horphans => ?_, ih (h.step (step_cases lib r call)) hall⟩
    obtain ⟨id, hmissing⟩ := h.missing horphans
    exact (hmissing.run rest).not_restorable hall

/-- One call is atomic unless it orphans its commit; and after a run of calls
every listed commit can be restored exactly when no call did. -/
theorem run_atomic (lib : JsonLibrary) (calls : List ArchiveCall)
    (hparse : ∀ fates req, ArchiveCall.commit fates req ∈ calls → ∀ text,
      lib.dump req.payload = .ok text → ∃ doc, lib.parse text = .ok doc) :
    (∀ fates (req : CommitRequest) db,
      (∀ e db', req.run lib fates db = .error e db' →
        db'.commits = db.commits ∧ db'.snapshots = db.snapshots) ↔
        ∀ text, ¬ Orphans lib fates req db text) ∧
    (AllRestorable lib (run lib {} calls).db ↔ NoOrphans lib {} calls) := by
  refine ⟨commitConfig_atomic_iff lib, fun hall => ?_, fun h => allRestorable_of_noOrphans h hparse⟩
  exact noOrphans_of_allRestorable (referenced_run lib []) hall

theorem run_atomic_noRules :
    AllRestorable (.plain [noRules]) (run (.plain [noRules]) {} noRulesCalls).db ↔
      NoOrphans (.plain [noRules]) {} noRulesCalls :=
  (run_atomic (.plain [noRules]) noRulesCalls fun fates req hmem text htext =>
    ⟨noRules, by
      rw [noRulesCalls_payload hmem] at htext
      exact JsonLibrary.plain_noRules htext⟩).2

/-- The snapshots insert fails on a full disk: the call throws, and its commit
is listed without a snapshot. -/
theorem commitConfig_orphan :
    ∃ e db', CommitRequest.run (.plain [noRules])
        ⟨.runs, .runs, .stepFails "database or disk is full"⟩ ⟨0, "operator", "first try", noRules⟩ {} =
        .error e db' ∧ db'.commits ≠ [] ∧ db'.snapshots = [] ∧
      ¬ AllRestorable (.plain [noRules]) db' := by
  refine ⟨_, _, rfl, List.cons_ne_nil _ _, rfl, fun hall => ?_⟩
  obtain ⟨doc, hdoc⟩ := hall (-1) _ rfl _ (List.mem_singleton_self _)
  cases hdoc

end ArchiveRun

end Openaslc
