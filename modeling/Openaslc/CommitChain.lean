import Openaslc.CommitHistory
import Openaslc.Machine

/-! Several archive objects on one file. The mutex of an object keeps its own
calls apart; the statements of other objects come in between. -/

namespace Openaslc

open ParentChain

/-- How far the call of one object is. Of its HEAD query it is also recorded
how it went and how many rows it found. -/
inductive CommitPhase
  | idle
  | headRead (text : String) (commit : CommitInfo) (head : Fate) (seen : Nat)
  | commitInserted (text : String) (commit : CommitInfo)

structure ArchiveSystem (ι : Type) where
  db : Database
  phases : ι → CommitPhase

namespace ArchiveSystem

inductive Event (ι : Type)
  | head (i : ι) (fate : Fate) (req : CommitRequest)
  | insertCommit (i : ι) (fate : Fate)
  | insertSnapshot (i : ι) (fate : Fate)

variable {ι : Type} [DecidableEq ι]

def set (s : ArchiveSystem ι) (i : ι) (db : Database) (phase : CommitPhase) : ArchiveSystem ι :=
  ⟨db, Function.update s.phases i phase⟩

def headStep (lib : JsonLibrary) (s : ArchiveSystem ι) (i : ι) (fate : Fate) (req : CommitRequest) :
    ArchiveSystem ι :=
  match lib.dump req.payload with
  | .error _ => s
  | .ok text =>
    match headCommit fate s.db with
    | .error _ _ => s
    | .ok _ _ => s.set i s.db (.headRead text (req.commit fate text s.db) fate s.db.commits.length)

def commitStep (s : ArchiveSystem ι) (i : ι) (fate : Fate) (text : String) (commit : CommitInfo) :
    ArchiveSystem ι :=
  match insertCommit fate commit s.db with
  | .error _ db => s.set i db .idle
  | .ok () db => s.set i db (.commitInserted text commit)

def snapshotStep (s : ArchiveSystem ι) (i : ι) (fate : Fate) (text : String) (commit : CommitInfo) :
    ArchiveSystem ι :=
  s.set i (StateExcept.final (insertSnapshot fate commit.sha256 text s.db)) .idle

def step (lib : JsonLibrary) (s : ArchiveSystem ι) : Event ι → Option (ArchiveSystem ι)
  | .head i fate req =>
    match s.phases i with
    | .idle => some (s.headStep lib i fate req)
    | _ => none
  | .insertCommit i fate =>
    match s.phases i with
    | .headRead text commit _ _ => some (s.commitStep i fate text commit)
    | _ => none
  | .insertSnapshot i fate =>
    match s.phases i with
    | .commitInserted text commit => some (s.snapshotStep i fate text commit)
    | _ => none

abbrev run (lib : JsonLibrary) : ArchiveSystem ι → List (Event ι) → Option (ArchiveSystem ι) :=
  Machine.run (step lib)

def initial : ArchiveSystem ι := ⟨{}, fun _ => .idle⟩

theorem phases_set (s : ArchiveSystem ι) (i j : ι) (db : Database) (phase : CommitPhase) :
    (s.set i db phase).phases j = if j = i then phase else s.phases j := by
  simp [set, Function.update_apply]

theorem set_set (s : ArchiveSystem ι) (i : ι) (db db' : Database) (phase phase' : CommitPhase) :
    (s.set i db phase).set i db' phase' = s.set i db' phase' := by
  simp only [set, Function.update_idem]

theorem run_inserts (lib : JsonLibrary) {s : ArchiveSystem ι} {i : ι} {text : String}
    {commit : CommitInfo} {head : Fate} {seen : Nat}
    (hi : s.phases i = .headRead text commit head seen) (fates : CommitFates) :
    ∃ events, run lib s (.insertCommit i fates.commit :: events) =
      some (s.set i (StateExcept.final ((do
        insertCommit fates.commit commit
        insertSnapshot fates.snapshot commit.sha256 text
        return commit : ArchiveM CommitInfo) s.db)) .idle) := by
  have hcommit : step lib s (.insertCommit i fates.commit) =
      some (s.commitStep i fates.commit text commit) := by
    simp only [step, hi]
  cases hc : insertCommit fates.commit commit s.db with
  | error e db =>
    have hstep : s.commitStep i fates.commit text commit = s.set i db .idle := by
      simp only [commitStep, hc]
    rw [StateExcept.bind_of_error hc]
    exact ⟨[], Machine.run_singleton.mpr (hcommit.trans (congrArg some hstep))⟩
  | ok u db =>
    have hstep : s.commitStep i fates.commit text commit =
        s.set i db (.commitInserted text commit) := by
      simp only [commitStep, hc]
    have hsnapshot : step lib (s.set i db (.commitInserted text commit))
        (.insertSnapshot i fates.snapshot) =
          some (s.set i (StateExcept.final (insertSnapshot fates.snapshot commit.sha256 text db)) .idle) := by
      simp only [step, phases_set, if_true, snapshotStep, set_set]
      rfl
    refine ⟨[.insertSnapshot i fates.snapshot], Machine.run_cons.mpr
      ⟨_, hcommit.trans (congrArg some hstep), Machine.run_singleton.mpr ?_⟩⟩
    rw [hsnapshot, StateExcept.bind_of_ok hc]
    cases hs : insertSnapshot fates.snapshot commit.sha256 text db with
    | error e db' =>
      rw [StateExcept.bind_of_error hs]
      rfl
    | ok u db' =>
      rw [StateExcept.bind_of_ok hs]
      rfl

/-- The statements of a call that no other object interrupts do what
`commit_config` does. -/
theorem run_alone (lib : JsonLibrary) {s : ArchiveSystem ι} {i : ι} (hidle : s.phases i = .idle)
    (fates : CommitFates) (req : CommitRequest) :
    ∃ events, run lib s (.head i fates.head req :: events) =
      some (s.set i (StateExcept.final (req.run lib fates s.db)) .idle) := by
  have hself : s = s.set i s.db .idle := by
    rw [set, ← hidle, Function.update_eq_self]
  have hhead : step lib s (.head i fates.head req) = some (s.headStep lib i fates.head req) := by
    simp only [step, hidle]
  rw [CommitRequest.run, commitConfig]
  cases hdump : lib.dump req.payload with
  | error what =>
    have hd : dumpPayload lib req.payload s.db = .error (.jsonTypeError what) s.db := by
      simp only [dumpPayload, hdump]
    have hstep : s.headStep lib i fates.head req = s := by simp only [headStep, hdump]
    rw [StateExcept.bind_of_error hd]
    exact ⟨[], Machine.run_singleton.mpr (hhead.trans (congrArg some (hstep.trans hself)))⟩
  | ok text =>
    have hd : dumpPayload lib req.payload s.db = .ok text s.db := by simp only [dumpPayload, hdump]
    rw [StateExcept.bind_of_ok hd]
    cases hh : headCommit fates.head s.db with
    | error e db =>
      obtain ⟨rfl, _⟩ := headCommit_error hh
      have hstep : s.headStep lib i fates.head req = s := by simp only [headStep, hdump, hh]
      rw [StateExcept.bind_of_error hh]
      exact ⟨[], Machine.run_singleton.mpr (hhead.trans (congrArg some (hstep.trans hself)))⟩
    | ok parent db =>
      obtain rfl := headCommit_ok hh
      have hparent : parent = headParent fates.head s.db := by
        cases hfate : fates.head with
        | prepareFails errmsg =>
          rw [hfate] at hh
          cases hh
        | _ =>
          rw [hfate] at hh
          cases hh
          rfl
      have hstep : s.headStep lib i fates.head req = s.set i s.db
          (.headRead text (req.commit fates.head text s.db) fates.head s.db.commits.length) := by
        simp only [headStep, hdump, hh]
      have hphase := phases_set s i i s.db
        (.headRead text (req.commit fates.head text s.db) fates.head s.db.commits.length)
      rw [if_pos rfl] at hphase
      obtain ⟨events, hevents⟩ := run_inserts lib hphase fates
      rw [StateExcept.bind_of_ok hh, hparent]
      rw [set_set] at hevents
      exact ⟨_, Machine.run_cons.mpr ⟨_, hhead.trans (congrArg some hstep), hevents⟩⟩

/-! ### Which inserts go on from the last row -/

/-- The HEAD query succeeded and no row went in since, or its step failed and
the table is still empty. -/
def FollowsHead (db : Database) (head : Fate) (seen : Nat) : Prop :=
  match head with
  | .runs => seen = db.commits.length
  | _ => db.commits = []

/-- If this event puts a commits row in, its call goes on from the last row. -/
def Undisturbed (s : ArchiveSystem ι) (e : Event ι) : Prop :=
  ∀ i fate text commit head seen db, e = .insertCommit i fate →
    s.phases i = .headRead text commit head seen → insertCommit fate commit s.db = .ok () db →
    FollowsHead s.db head seen

def AllUndisturbed (lib : JsonLibrary) : ArchiveSystem ι → List (Event ι) → Prop
  | _, [] => True
  | s, e :: es => s.Undisturbed e ∧ ∀ t, step lib s e = some t → AllUndisturbed lib t es

/-! ### What a step does -/

inductive StepCase (s : ArchiveSystem ι) : Event ι → ArchiveSystem ι → Prop
  | same {e : Event ι} {t : ArchiveSystem ι} (undisturbed : s.Undisturbed e)
      (commits : t.db.commits = s.db.commits)
      (phases : ∀ j text commit head seen, t.phases j = .headRead text commit head seen →
        s.phases j = .headRead text commit head seen) : StepCase s e t
  | headRead {i : ι} {fate : Fate} {req : CommitRequest} {text : String} :
      StepCase s (.head i fate req)
        (s.set i s.db (.headRead text (req.commit fate text s.db) fate s.db.commits.length))
  | inserted {i : ι} {fate : Fate} {text : String} {commit : CommitInfo} {head : Fate} {seen : Nat}
      (here : s.phases i = .headRead text commit head seen)
      (insert : insertCommit fate commit s.db = .ok () { s.db with
        commits := s.db.commits ++ [commit.row] })
      (fresh : ∀ row ∈ s.db.commits, row.sha256 ≠ commit.row.sha256) :
      StepCase s (.insertCommit i fate) (s.set i { s.db with
        commits := s.db.commits ++ [commit.row] } (.commitInserted text commit))

theorem phases_set_idle {s : ArchiveSystem ι} {i : ι} {db : Database} (j : ι) (text : String)
    (commit : CommitInfo) (head : Fate) (seen : Nat)
    (h : (s.set i db .idle).phases j = .headRead text commit head seen) :
    s.phases j = .headRead text commit head seen := by
  rw [phases_set] at h
  split at h
  · cases h
  · exact h

theorem step_case {lib : JsonLibrary} {s t : ArchiveSystem ι} {e : Event ι}
    (h : step lib s e = some t) : StepCase s e t := by
  cases e with
  | head i fate req =>
    have hquiet : s.Undisturbed (.head i fate req) := fun _ _ _ _ _ _ _ he => by cases he
    simp only [step] at h
    split at h
    · cases h
      rw [headStep]
      split
      · exact .same hquiet rfl fun _ _ _ _ _ hj => hj
      · split
        · exact .same hquiet rfl fun _ _ _ _ _ hj => hj
        · exact .headRead
    · cases h
  | insertCommit i fate =>
    simp only [step] at h
    split at h
    · next text commit head seen hi =>
      cases h
      rw [commitStep]
      cases hins : insertCommit fate commit s.db with
      | error e db =>
        obtain ⟨rfl, _⟩ := insertStatement_error hins
        refine .same ?_ rfl phases_set_idle
        rintro _ _ _ _ _ _ db' ⟨⟩ hj hok
        rw [hi] at hj
        cases hj
        rw [hins] at hok
        cases hok
      | ok u db =>
        obtain ⟨hfresh, rfl⟩ := insertCommit_ok hins
        exact .inserted hi hins hfresh
    · cases h
  | insertSnapshot i fate =>
    have hquiet : s.Undisturbed (.insertSnapshot i fate) := fun _ _ _ _ _ _ _ he => by cases he
    simp only [step] at h
    split at h
    · next text commit hi =>
      cases h
      rw [snapshotStep]
      cases hins : insertSnapshot fate commit.sha256 text s.db with
      | error e db =>
        obtain ⟨rfl, _⟩ := insertStatement_error hins
        exact .same hquiet rfl phases_set_idle
      | ok u db =>
        obtain ⟨_, rfl⟩ := insertSnapshot_ok hins
        exact .same hquiet rfl phases_set_idle
    · cases h

/-! ### The chain -/

def headSeen (db : Database) (head : Fate) (seen : Nat) : Option String :=
  match head with
  | .runs => predecessor CommitInfo.sha256 db.commits seen
  | _ => none

structure Inv (s : ArchiveSystem ι) : Prop where
  nodup : (s.db.commits.map CommitInfo.sha256).Nodup
  bound : ∀ row ∈ s.db.commits, cString row.sha256 = row.sha256
  parent : ∀ i text commit head seen, s.phases i = .headRead text commit head seen →
    seen ≤ s.db.commits.length ∧ commit.parentSha256 = headSeen s.db head seen

theorem headParent_eq_headSeen (head : Fate) (db : Database) :
    headParent head db = headSeen db head db.commits.length := by
  cases head with
  | runs => exact (predecessor_length db.commits).symm
  | _ => rfl

omit [DecidableEq ι] in
theorem Inv.row_parent {s : ArchiveSystem ι} (h : Inv s) {i : ι} {text : String} {commit : CommitInfo}
    {head : Fate} {seen : Nat} (hi : s.phases i = .headRead text commit head seen) :
    commit.row.parentSha256 = headSeen s.db head seen := by
  show commit.parentSha256.map cString = _
  rw [(h.parent i text commit head seen hi).2]
  cases hseen : headSeen s.db head seen with
  | none => rfl
  | some p =>
    cases head with
    | runs =>
      obtain ⟨m, _, hm⟩ := predecessor_eq_some hseen
      obtain ⟨row, hrow, rfl⟩ := List.mem_map.mp (List.mem_of_getElem? hm)
      exact congrArg some (h.bound row hrow)
    | _ => cases hseen

omit [DecidableEq ι] in
theorem Inv.followsHead_iff {s : ArchiveSystem ι} (h : Inv s) (head : Fate) {seen : Nat}
    (hseen : seen ≤ s.db.commits.length) :
    headSeen s.db head seen = s.db.commits.getLast?.map CommitInfo.sha256 ↔
      FollowsHead s.db head seen := by
  have hempty : none = s.db.commits.getLast?.map CommitInfo.sha256 ↔ s.db.commits = [] := by
    rw [eq_comm, Option.map_eq_none_iff, List.getLast?_eq_none_iff]
  cases head with
  | runs => exact predecessor_eq_last_iff h.nodup hseen
  | _ => exact hempty

theorem Inv.step {s t : ArchiveSystem ι} {e : Event ι} (h : Inv s) (hcase : StepCase s e t) :
    Inv t := by
  cases hcase with
  | same _ hcommits hphases =>
    refine ⟨hcommits ▸ h.nodup, hcommits ▸ h.bound, fun i text commit head seen hi => ?_⟩
    have hold := h.parent i text commit head seen (hphases i text commit head seen hi)
    cases head with
    | runs => exact ⟨hcommits ▸ hold.1, by rw [hold.2, headSeen, headSeen, hcommits]⟩
    | _ => exact ⟨hcommits ▸ hold.1, hold.2⟩
  | headRead =>
    refine ⟨h.nodup, h.bound, fun i text commit head seen hi => ?_⟩
    rw [phases_set] at hi
    split at hi
    · cases hi
      exact ⟨Nat.le_refl _, headParent_eq_headSeen _ _⟩
    · exact h.parent i text commit head seen hi
  | @inserted i fate text commit head seen hhere hins hfresh =>
    refine ⟨?_, ?_, fun j text' commit' head' seen' hj => ?_⟩
    · have hnodup := h.nodup.concat fun hmem : commit.row.sha256 ∈ _ => by
        obtain ⟨row, hrow, he⟩ := List.mem_map.mp hmem
        exact hfresh row hrow he
      simpa [set, List.concat_eq_append] using hnodup
    · intro row hrow
      rcases List.mem_append.mp hrow with hrow | hrow
      · exact h.bound row hrow
      · rw [List.mem_singleton.mp hrow]
        exact cString_cString commit.sha256
    · rw [phases_set] at hj
      split at hj
      · cases hj
      · obtain ⟨hle, hparent⟩ := h.parent j text' commit' head' seen' hj
        have hle' : seen' ≤ (s.db.commits ++ [commit.row]).length := by
          rw [List.length_append]
          omega
        refine ⟨hle', ?_⟩
        rw [hparent]
        cases head' with
        | runs => exact (predecessor_concat hle commit.row).symm
        | _ => rfl

/-- One step keeps the chain exactly when it is undisturbed. -/
theorem chained_step {s t : ArchiveSystem ι} {e : Event ι} (h : Inv s) (hcase : StepCase s e t) :
    Chained CommitInfo.sha256 CommitInfo.parentSha256 t.db.commits ↔
      Chained CommitInfo.sha256 CommitInfo.parentSha256 s.db.commits ∧ s.Undisturbed e := by
  cases hcase with
  | same hundisturbed hcommits =>
    rw [hcommits]
    exact (and_iff_left hundisturbed).symm
  | headRead =>
    refine (and_iff_left ?_).symm
    exact fun _ _ _ _ _ _ _ he => by cases he
  | @inserted i fate text commit head seen hhere hins _ =>
    have hundisturbed : s.Undisturbed (.insertCommit i fate) ↔ FollowsHead s.db head seen := by
      constructor
      · exact fun hall => hall i fate text commit head seen _ rfl hhere hins
      · rintro hfollows _ _ text' commit' head' seen' _ ⟨⟩ hj _
        rw [hhere] at hj
        cases hj
        exact hfollows
    rw [hundisturbed, ← h.followsHead_iff head (h.parent i _ _ _ _ hhere).1, ← h.row_parent hhere]
    exact chained_concat

omit [DecidableEq ι] in
theorem inv_initial : Inv (initial : ArchiveSystem ι) :=
  ⟨List.nodup_nil, fun _ hrow => (by cases hrow), fun _ _ _ _ _ hi => (by cases hi)⟩

theorem chained_run {lib : JsonLibrary} {s t : ArchiveSystem ι} (hs : Inv s) {events : List (Event ι)}
    (h : run lib s events = some t) :
    Inv t ∧ (Chained CommitInfo.sha256 CommitInfo.parentSha256 t.db.commits ↔
      Chained CommitInfo.sha256 CommitInfo.parentSha256 s.db.commits ∧
        AllUndisturbed lib s events) := by
  induction events generalizing s with
  | nil =>
    obtain rfl : s = t := by simpa [run] using h
    exact ⟨hs, (and_iff_left trivial).symm⟩
  | cons e es ih =>
    obtain ⟨m, hm, hrest⟩ := Machine.run_cons.mp h
    have hcase := step_case hm
    obtain ⟨ht, hiff⟩ := ih (hs.step hcase) hrest
    refine ⟨ht, ?_⟩
    have hnext : (∀ t, step lib s e = some t → AllUndisturbed lib t es) ↔
        AllUndisturbed lib m es := by
      rw [hm]
      simp
    rw [hiff, chained_step hs hcase, AllUndisturbed, hnext, and_assoc]

theorem run_fresh {lib : JsonLibrary} {s : ArchiveSystem ι} {i : ι} {req : CommitRequest}
    {text : String} {head : Fate} (hidle : s.phases i = .idle) (hdump : lib.dump req.payload = .ok text)
    (hhead : ∀ errmsg, head ≠ .prepareFails errmsg)
    (hcommits : ∀ row ∈ s.db.commits, row.sha256 ≠ (req.commit head text s.db).row.sha256)
    (hsnapshots : ∀ row ∈ s.db.snapshots,
      row.commitSha256 ≠ (req.commit head text s.db).row.sha256) :
    run lib s [.head i head req, .insertCommit i .runs, .insertSnapshot i .runs] =
      some (s.set i (s.db.withCommit (req.commit head text s.db) text) .idle) := by
  generalize hcommit : req.commit head text s.db = commit at *
  have htext : cString text = text := cString_eq (lib.dump_noNul _ _ hdump)
  have hh := headCommit_eq hhead s.db
  have hc := insertCommit_eq hcommits
  have hs : insertSnapshot .runs commit.sha256 text { s.db with
      commits := s.db.commits ++ [commit.row] } = .ok () (s.db.withCommit commit text) := by
    have hins := @insertSnapshot_eq commit.sha256 text
      { s.db with commits := s.db.commits ++ [commit.row] } hsnapshots
    rwa [htext] at hins
  have h₁ : step lib s (.head i head req) =
      some (s.set i s.db (.headRead text commit head s.db.commits.length)) := by
    simp only [step, hidle, headStep, hdump, hh, hcommit]
  have h₂ : step lib (s.set i s.db (.headRead text commit head s.db.commits.length))
      (.insertCommit i .runs) = some (s.set i { s.db with
        commits := s.db.commits ++ [commit.row] } (.commitInserted text commit)) := by
    simp only [step, phases_set, if_true, commitStep, set_set]
    rw [show (s.set i s.db (.headRead text commit head s.db.commits.length)).db = s.db from rfl, hc]
  have h₃ : step lib (s.set i { s.db with commits := s.db.commits ++ [commit.row] }
      (.commitInserted text commit)) (.insertSnapshot i .runs) =
        some (s.set i (s.db.withCommit commit text) .idle) := by
    simp only [step, phases_set, if_true, snapshotStep, set_set]
    rw [show (s.set i { s.db with commits := s.db.commits ++ [commit.row] }
      (.commitInserted text commit)).db = { s.db with commits := s.db.commits ++ [commit.row] } from rfl, hs]
    rfl
  exact Machine.run_cons.mpr ⟨_, h₁, Machine.run_cons.mpr ⟨_, h₂, Machine.run_singleton.mpr h₃⟩⟩

def firstRequest : CommitRequest := ⟨0, "operator", "first try", noRules⟩

theorem noRules_dump : (JsonLibrary.plain [noRules]).dump noRules = .ok (plainText noRules) :=
  JsonLibrary.plain_dump [noRules] (by decide)

theorem lockedHead_first : ∃ s : ArchiveSystem Unit, run (.plain [noRules]) initial
    [.head () .runs firstRequest, .insertCommit () .runs, .insertSnapshot () .runs] = some s ∧
    s.phases () = .idle ∧ ∃ commit : CommitInfo, s.db.commits = [commit.row] ∧
      s.db.snapshots.map SnapshotRow.commitSha256 = [commit.row.sha256] ∧
      commit.row.parentSha256 = none ∧ commit.row.sha256 = sha256Hex (hashInput
        (plainText noRules) "operator" "first try" (currentTimestamp 0)) := by
  have hrun := @run_fresh Unit _ (.plain [noRules]) initial () firstRequest _ .runs rfl noRules_dump
    (fun _ he => by cases he) (fun _ hrow => by cases hrow) (fun _ hrow => by cases hrow)
  exact ⟨_, hrun, phases_set .., _, rfl, rfl, rfl, row_sha256 ..⟩

/-- After every interleaving of calls through any objects, with any failing
statements: the commits are one line of descent exactly when no commits row
went in over a HEAD that had failed or been overtaken. -/
theorem linear_iff_undisturbed {lib : JsonLibrary} {s : ArchiveSystem ι} {events : List (Event ι)}
    (h : run lib initial events = some s) :
    Linear CommitInfo.sha256 CommitInfo.parentSha256 s.db.commits ↔
      AllUndisturbed lib initial events := by
  obtain ⟨hinv, hiff⟩ := chained_run inv_initial h
  rw [linear_iff_chained hinv.nodup, hiff]
  exact and_iff_right chained_nil

def secondRequest : CommitRequest := ⟨1, "operator", "second try", noRules⟩

/-- Each of two objects reads the HEAD of the empty file before the other inserts. -/
def overtakenHead : List (Event Bool) :=
  [.head false .runs firstRequest, .head true .runs secondRequest, .insertCommit false .runs,
    .insertCommit true .runs, .insertSnapshot false .runs]

theorem isSome_overtakenHead :
    (run (.plain [noRules]) (initial : ArchiveSystem Bool) overtakenHead).isSome = true := by
  decide +kernel

theorem linear_iff_undisturbed_overtaken : ∃ s,
    run (.plain [noRules]) (initial : ArchiveSystem Bool) overtakenHead = some s ∧
    (Linear CommitInfo.sha256 CommitInfo.parentSha256 s.db.commits ↔
      AllUndisturbed (.plain [noRules]) (initial : ArchiveSystem Bool) overtakenHead) := by
  obtain ⟨s, hrun⟩ := Option.isSome_iff_exists.mp isSome_overtakenHead
  exact ⟨s, hrun, linear_iff_undisturbed hrun⟩

/-- The step of the second HEAD query fails. -/
def lockedHead : List (Event Unit) :=
  [.head () .runs firstRequest, .insertCommit () .runs, .insertSnapshot () .runs] ++
    [.head () (.stepFails "database is locked") secondRequest, .insertCommit () .runs,
      .insertSnapshot () .runs]

theorem lockedHead_ids : sha256Hex (hashInput (plainText noRules) "operator" "first try"
    (currentTimestamp 0)) ≠ sha256Hex (hashInput (plainText noRules) "operator" "second try"
    (currentTimestamp 1)) := by
  decide +kernel

/-- Through one object, one call after the other: the second commit has no
parent either. -/
theorem lockedHead_not_linear : ∃ s, run (.plain [noRules]) initial lockedHead = some s ∧
    ¬ Linear CommitInfo.sha256 CommitInfo.parentSha256 s.db.commits := by
  obtain ⟨s₁, h₁, hidle, commit, hcommits, hsnapshots, hroot, hid⟩ := lockedHead_first
  obtain ⟨second, hsecond⟩ : ∃ c, c = secondRequest.commit (.stepFails "database is locked")
    (plainText noRules) s₁.db := ⟨_, rfl⟩
  have hid' : second.row.sha256 = sha256Hex (hashInput (plainText noRules) "operator" "second try"
      (currentTimestamp 1)) := hsecond ▸ row_sha256 ..
  have hne : commit.row.sha256 ≠ second.row.sha256 := by
    rw [hid, hid']
    exact lockedHead_ids
  have h₂ := @run_fresh Unit _ (.plain [noRules]) s₁ () secondRequest _
    (.stepFails "database is locked") hidle noRules_dump (fun _ he => by cases he)
    (fun row hrow => by
      rw [hcommits] at hrow
      rw [← hsecond, List.mem_singleton.mp hrow]
      exact hne)
    (fun row hrow => by
      have hmem : row.commitSha256 ∈ s₁.db.snapshots.map SnapshotRow.commitSha256 :=
        List.mem_map_of_mem hrow
      rw [hsnapshots] at hmem
      rw [← hsecond, List.mem_singleton.mp hmem]
      exact hne)
  refine ⟨_, Machine.run_append.mpr ⟨s₁, h₁, h₂⟩, fun hlinear => ?_⟩
  have hrows : (s₁.db.withCommit second (plainText noRules)).commits = [commit.row, second.row] := by
    rw [Database.withCommit, hcommits]
    rfl
  rw [← hsecond] at hlinear
  change Linear _ _ (s₁.db.withCommit second (plainText noRules)).commits at hlinear
  rw [hrows] at hlinear
  have hroot' : second.row.parentSha256 = none := by
    rw [hsecond]
    rfl
  obtain ⟨i, _, hunique⟩ := hlinear.root (List.cons_ne_nil _ _)
  have hzero := hunique 0 commit.row rfl hroot
  have hone := hunique 1 second.row rfl hroot'
  omega

end ArchiveSystem

end Openaslc
