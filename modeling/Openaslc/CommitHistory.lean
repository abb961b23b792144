import Openaslc.ArchiveRuns
import Openaslc.JsonText
import Openaslc.ParentChain

/-! The three views of the history, rows, parent links and snapshots, over
whole runs of calls. -/

namespace Openaslc

open ParentChain

theorem cString_cString (s : String) : cString (cString s) = cString s := by
  rw [cString, cString, String.toList_ofList, List.takeWhile_takeWhile]
  simp

namespace ArchiveRun

structure Kept (lib : JsonLibrary) (r : ArchiveRun) : Prop where
  commits : r.db.commits = r.committed.map fun c => c.1.row
  snapshots : List.Forall₂ (fun c row => row.commitSha256 = c.1.sha256 ∧
    lib.dump c.2 = .ok row.payload) r.committed r.db.snapshots
  ids : ∀ c ∈ r.committed, c.1.row.sha256 = c.1.sha256
  nodup : (r.committed.map fun c => c.1.sha256).Nodup

variable {lib : JsonLibrary} {r : ArchiveRun}

theorem kept_empty (lib : JsonLibrary) : Kept lib {} :=
  ⟨rfl, .nil, by simp, List.nodup_nil⟩

theorem Kept.commitIds (h : Kept lib r) :
    r.db.commits.map CommitInfo.sha256 = r.committed.map fun c => c.1.sha256 := by
  rw [h.commits, List.map_map]
  exact List.map_congr_left fun c hc => h.ids c hc

theorem Kept.snapshotIds (h : Kept lib r) :
    r.db.snapshots.map SnapshotRow.commitSha256 = r.committed.map fun c => c.1.sha256 := by
  have hsnapshots := h.snapshots
  generalize r.committed = committed at hsnapshots
  generalize r.db.snapshots = rows at hsnapshots
  induction hsnapshots with
  | nil => rfl
  | cons hhead _ ih => rw [List.map_cons, List.map_cons, hhead.1, ih]

theorem Kept.step (h : Kept lib r) {call : ArchiveCall} {r' : ArchiveRun}
    (hnot : ¬ call.Orphans lib r.db) (hcase : StepCase lib r call r') : Kept lib r' := by
  cases hcase with
  | same _ hcommits hsnapshots =>
    exact ⟨hcommits.trans h.commits, hsnapshots ▸ h.snapshots, h.ids, h.nodup⟩
  | orphaned horphans => exact absurd ⟨_, horphans⟩ hnot
  | @done fates req text commit hmade _ hdump hfresh =>
    have hid : commit.row.sha256 = commit.sha256 := by
      rw [hmade]
      exact row_sha256 req fates.head text r.db
    refine ⟨?_, ?_, ?_, ?_⟩
    · rw [Database.withCommit, h.commits, List.map_append]
      rfl
    · exact List.rel_append h.snapshots (.cons ⟨hid, hdump⟩ .nil)
    · intro c hc
      rcases List.mem_append.mp hc with hc | hc
      · exact h.ids c hc
      · rw [List.mem_singleton.mp hc]
        exact hid
    · rw [List.map_append, List.map_cons, List.map_nil, ← List.concat_eq_append]
      refine h.nodup.concat fun hmem => ?_
      rw [← h.commitIds] at hmem
      obtain ⟨row, hrow, he⟩ := List.mem_map.mp hmem
      exact hfresh row hrow he

theorem Kept.not_orphans (h : Kept lib r) {fates : CommitFates} (hruns : fates.snapshot = .runs)
    (req : CommitRequest) : ¬ (ArchiveCall.commit fates req).Orphans lib r.db := by
  rintro ⟨text, horphans⟩
  obtain ⟨row, hrow, he⟩ := horphans.snapshot hruns
  have hmem : row.commitSha256 ∈ r.db.commits.map CommitInfo.sha256 := by
    rw [h.commitIds, ← h.snapshotIds]
    exact List.mem_map_of_mem hrow
  obtain ⟨row', hrow', he'⟩ := List.mem_map.mp hmem
  exact horphans.fresh row' hrow' (he'.trans he)

/-! ### The views -/

theorem find?_of_nodup {α κ : Type} [BEq κ] [LawfulBEq κ] {key : α → κ} {rows : List α}
    (hkeys : (rows.map key).Nodup) {row : α} (hmem : row ∈ rows) :
    (rows.find? fun row' => key row' == key row) = some row := by
  induction rows with
  | nil => cases hmem
  | cons first rest ih =>
    rw [List.map_cons, List.nodup_cons] at hkeys
    rcases List.mem_cons.mp hmem with rfl | hrest
    · exact List.find?_cons_of_pos (by simp)
    · have hne : key first ≠ key row := fun he => hkeys.1 (he ▸ List.mem_map_of_mem hrest)
      rw [List.find?_cons_of_neg (by simpa using hne)]
      exact ih hkeys.2 hrest

theorem Kept.snapshot_of_mem (h : Kept lib r) {c : CommitInfo × Json} (hc : c ∈ r.committed) :
    ∃ row ∈ r.db.snapshots, row.commitSha256 = c.1.sha256 ∧ lib.dump c.2 = .ok row.payload := by
  have hsnapshots := h.snapshots
  generalize r.committed = committed at hsnapshots hc
  generalize r.db.snapshots = rows at hsnapshots
  induction hsnapshots with
  | nil => cases hc
  | @cons c' row committed rows hhead _ ih =>
    rcases List.mem_cons.mp hc with rfl | hrest
    · exact ⟨row, List.mem_cons_self, hhead⟩
    · obtain ⟨row', hmem, hrow⟩ := ih hrest
      exact ⟨row', List.mem_cons_of_mem _ hmem, hrow⟩

theorem Kept.getSnapshot (h : Kept lib r) {c : CommitInfo × Json} (hc : c ∈ r.committed) {doc : Json}
    (hparse : ∀ text, lib.dump c.2 = .ok text → lib.parse text = .ok doc) :
    getSnapshot lib .runs c.1.sha256 r.db = .ok doc r.db := by
  obtain ⟨row, hmem, hid, hdump⟩ := h.snapshot_of_mem hc
  have hbound : cString c.1.sha256 = row.commitSha256 := (h.ids c hc).trans hid.symm
  have hkeys : (r.db.snapshots.map SnapshotRow.commitSha256).Nodup := h.snapshotIds ▸ h.nodup
  have hfind : findSnapshot .runs c.1.sha256 r.db = some row := by
    rw [findSnapshot, hbound]
    exact find?_of_nodup hkeys hmem
  simp only [Openaslc.getSnapshot, hfind, hparse row.payload hdump]

def newestIds (r : ArchiveRun) : List String := (r.committed.map fun c => c.1.sha256).reverse

theorem Kept.history_ids (h : Kept lib r) (limit : Int32) :
    (limited limit r.db.commits.reverse).map CommitInfo.sha256 = limited limit r.newestIds := by
  rw [map_limited, List.map_reverse, h.commitIds, newestIds]

/-- In a chained table every history entry names the entry after it. -/
theorem history_parent {rows : List CommitInfo}
    (h : Chained CommitInfo.sha256 CommitInfo.parentSha256 rows) {i : Nat} {info : CommitInfo}
    (hi : rows.reverse[i]? = some info) :
    info.parentSha256 = (rows.map CommitInfo.sha256).reverse[i + 1]? := by
  have hlt : i < rows.length := by
    simpa using (List.getElem?_eq_some_iff.mp hi).1
  rw [List.getElem?_reverse hlt] at hi
  have hparent := h _ _ hi
  rw [hparent]
  by_cases hlast : i + 1 < rows.length
  · have hpred : rows.length - 1 - i = rows.length - 1 - (i + 1) + 1 := by omega
    rw [hpred, predecessor, List.getElem?_reverse (by simpa using hlast), List.getElem?_map,
      List.length_map]
  · have hzero : rows.length - 1 - i = 0 := by omega
    rw [hzero, predecessor, List.getElem?_eq_none (by simp; omega)]

end ArchiveRun

/-- No statement of the call fails, except for a key that is already present. -/
def ArchiveCall.Runs : ArchiveCall → Prop
  | .commit fates _ => fates = ⟨.runs, .runs, .runs⟩
  | .record fate _ _ => fate = .runs
  | .history fate _ => fate = .runs
  | .snapshot fate _ => fate = .runs
  | .reopen => True

namespace ArchiveRun

variable {lib : JsonLibrary} {r : ArchiveRun}

theorem Kept.row_parent (h : Kept lib r) (req : CommitRequest) (text : String) :
    (req.commit .runs text r.db).row.parentSha256 = r.db.commits.getLast?.map CommitInfo.sha256 := by
  show (r.db.commits.getLast?.map CommitInfo.sha256).map cString = _
  rw [h.commits, List.getLast?_map]
  cases r.committed.getLast? with
  | none => rfl
  | some c => exact congrArg some (cString_cString c.1.sha256)

def Linked (lib : JsonLibrary) (r : ArchiveRun) : Prop :=
  Kept lib r ∧ Chained CommitInfo.sha256 CommitInfo.parentSha256 r.db.commits

theorem Linked.step (h : Linked lib r) {call : ArchiveCall} (hruns : call.Runs) {r' : ArchiveRun}
    (hcase : StepCase lib r call r') : Linked lib r' := by
  obtain ⟨hkept, hchained⟩ := h
  cases hcase with
  | same hnot hcommits hsnapshots =>
    exact ⟨hkept.step hnot (.same hnot hcommits hsnapshots), hcommits ▸ hchained⟩
  | orphaned horphans =>
    obtain rfl : _ = _ := hruns
    exact absurd ⟨_, horphans⟩ (hkept.not_orphans rfl _)
  | done hmade hnot hdump hfresh hsnapshot =>
    obtain rfl : _ = _ := hruns
    refine ⟨hkept.step hnot (.done hmade hnot hdump hfresh hsnapshot), ?_⟩
    rw [hmade]
    exact chained_concat.mpr ⟨hchained, hkept.row_parent _ _⟩

theorem linked_run {calls : List ArchiveCall} (hruns : ∀ call ∈ calls, call.Runs) :
    Linked lib (run lib {} calls) :=
  run_invariant (Linked lib) (fun _ _ _ hr hcall hcase => hr.step hcall hcase)
    ⟨kept_empty lib, chained_nil⟩ (along_of_forall lib {} hruns)

theorem committed_payload {calls : List ArchiveCall} {c : CommitInfo × Json}
    (hc : c ∈ (run lib {} calls).committed) :
    ∃ fates req, ArchiveCall.commit fates req ∈ calls ∧ c.2 = req.payload := by
  refine run_invariant (fun r => ∀ c ∈ r.committed, ∃ fates req,
    ArchiveCall.commit fates req ∈ calls ∧ c.2 = req.payload) ?_ (by simp)
    (along_of_forall lib {} fun call hcall => hcall) c hc
  intro r r' call hr hmem hcase
  cases hcase with
  | same => exact hr
  | orphaned => exact hr
  | @done fates req text commit =>
    intro c hc
    rcases List.mem_append.mp hc with hc | hc
    · exact hr c hc
    · rw [List.mem_singleton.mp hc]
      exact ⟨fates, req, hmem, rfl⟩

/-- Whatever calls were made and wherever the archive was reopened: history,
parent links and snapshots are those of the commits that returned. -/
theorem run_history (lib : JsonLibrary) (calls : List ArchiveCall) (hruns : ∀ call ∈ calls, call.Runs)
    (hround : ∀ fates req, ArchiveCall.commit fates req ∈ calls → ∀ text,
      lib.dump req.payload = .ok text → lib.parse text = .ok req.payload) :
    (∀ limit, ∃ history,
      getCommitHistory .runs limit (run lib {} calls).db = .ok history (run lib {} calls).db ∧
      history.map CommitInfo.sha256 = limited limit (run lib {} calls).newestIds ∧
      ∀ (i : Nat) info, history[i]? = some info →
        info.parentSha256 = (run lib {} calls).newestIds[i + 1]?) ∧
    (∀ c ∈ (run lib {} calls).committed,
      getSnapshot lib .runs c.1.sha256 (run lib {} calls).db = .ok c.2 (run lib {} calls).db) ∧
    ∀ fate now sha256,
      (step lib (run lib {} calls) (.record fate now sha256)).committed = (run lib {} calls).committed ∧
      (step lib (run lib {} calls) (.record fate now sha256)).db.commits =
        (run lib {} calls).db.commits ∧
      (step lib (run lib {} calls) (.record fate now sha256)).db.snapshots =
        (run lib {} calls).db.snapshots := by
  obtain ⟨hkept, hchained⟩ := @linked_run lib calls hruns
  refine ⟨fun limit => ⟨_, rfl, hkept.history_ids limit, fun i info hi => ?_⟩, fun c hc => ?_,
    fun fate now sha256 => ?_⟩
  · rw [newestIds, ← hkept.commitIds]
    exact history_parent hchained (getElem?_limited hi)
  · obtain ⟨fates, req, hcall, hpayload⟩ := committed_payload hc
    exact hkept.getSnapshot hc fun text htext => hpayload ▸ hround fates req hcall text (hpayload ▸ htext)
  · obtain ⟨hcommits, hsnapshots⟩ := recordDeployment_tables fate now sha256 (run lib {} calls).db
    exact ⟨rfl, hcommits, hsnapshots⟩

def noRulesCall (now : Int) : ArchiveCall :=
  .commit ⟨.runs, .runs, .runs⟩ ⟨now, "operator", "first try", noRules⟩

def noRulesCalls : List ArchiveCall :=
  [noRulesCall 0, noRulesCall 0, .reopen, noRulesCall 1, .record .runs 1 "", .history .runs 50]

theorem noRulesCalls_payload {fates : CommitFates} {req : CommitRequest}
    (h : ArchiveCall.commit fates req ∈ noRulesCalls) : req.payload = noRules := by
  simp only [noRulesCalls, noRulesCall, List.mem_cons, ArchiveCall.commit.injEq, reduceCtorEq,
    List.not_mem_nil, or_false, false_or] at h
  rcases h with ⟨_, rfl⟩ | ⟨_, rfl⟩ | ⟨_, rfl⟩
  · rfl
  · rfl
  · rfl

theorem run_history_noRules :
    ∃ history, getCommitHistory .runs (-1) (run (.plain [noRules]) {} noRulesCalls).db =
        .ok history (run (.plain [noRules]) {} noRulesCalls).db ∧
      history.map CommitInfo.sha256 =
        limited (-1) (run (.plain [noRules]) {} noRulesCalls).newestIds ∧
      ∀ (i : Nat) info, history[i]? = some info →
        info.parentSha256 = (run (.plain [noRules]) {} noRulesCalls).newestIds[i + 1]? := by
  have hruns : ∀ call ∈ noRulesCalls, call.Runs := by
    simp [noRulesCalls, noRulesCall, ArchiveCall.Runs]
  exact (run_history (.plain [noRules]) noRulesCalls hruns fun fates req hmem text htext => by
    rw [noRulesCalls_payload hmem] at htext ⊢
    exact JsonLibrary.plain_noRules htext).1 (-1)

end ArchiveRun

end Openaslc
