import Openaslc.ConfigArchive
import Openaslc.GraphicText

/-! The queries of the archive, the ways `commit_config` can end, and runs of
calls, which the archive's mutex puts one after the other. -/

namespace Openaslc

/-- What SQLite does with a query that is stepped row by row. -/
inductive QueryFate
  | runs
  | prepareFails (errmsg : String)
  | stepFails (rows : Nat)

/-- `LIMIT ?`; a negative value is no limit. -/
def limited {α : Type} (limit : Int32) (rows : List α) : List α :=
  if limit < 0 then rows else rows.take limit.toInt.toNat

theorem map_limited {α β : Type} (f : α → β) (limit : Int32) (rows : List α) :
    (limited limit rows).map f = limited limit (rows.map f) := by
  unfold limited
  split
  · rfl
  · rw [List.map_take]

theorem mem_of_mem_limited {α : Type} {limit : Int32} {rows : List α} {a : α}
    (h : a ∈ limited limit rows) : a ∈ rows := by
  unfold limited at h
  split at h
  · exact h
  · exact List.mem_of_mem_take h

theorem getElem?_limited {α : Type} {limit : Int32} {rows : List α} {i : Nat} {a : α}
    (h : (limited limit rows)[i]? = some a) : rows[i]? = some a := by
  unfold limited at h
  split at h
  · exact h
  · rw [List.getElem?_take] at h
    split at h
    · exact h
    · cases h

/-- The loop ends at the first step without a row, also where that step failed. -/
def getCommitHistory (fate : QueryFate) (limit : Int32) : ArchiveM (List CommitInfo) := fun db =>
  match fate with
  | .prepareFails errmsg =>
    .error (.configArchiveError ("failed to prepare history query: " ++ errmsg)) db
  | .stepFails rows => .ok ((limited limit db.commits.reverse).take rows) db
  | .runs => .ok (limited limit db.commits.reverse) db

def findSnapshot (fate : Fate) (commitSha256 : String) (db : Database) : Option SnapshotRow :=
  match fate with
  | .runs => db.snapshots.find? fun row => row.commitSha256 == cString commitSha256
  | _ => none

def getSnapshot (lib : JsonLibrary) (fate : Fate) (commitSha256 : String) : ArchiveM Json := fun db =>
  match fate with
  | .prepareFails errmsg =>
    .error (.configArchiveError ("failed to prepare snapshot query: " ++ errmsg)) db
  | _ =>
    match findSnapshot fate commitSha256 db with
    | none => .error (.configArchiveError ("no snapshot found for commit " ++ commitSha256)) db
    | some row =>
      match lib.parse row.payload with
      | .ok doc => .ok doc db
      | .error failure => .error failure.exception db

/-- The constructor's `CREATE TABLE IF NOT EXISTS` statements. -/
def createTables (file : Option Database) : Database := file.getD {}

/-! ### The ways a commit can end -/

def headParent (head : Fate) (db : Database) : Option String :=
  match head with
  | .runs => db.commits.getLast?.map CommitInfo.sha256
  | _ => none

/-- The arguments of a call of `commit_config` and its clock reading. -/
structure CommitRequest where
  now : Int
  author : String
  message : String
  payload : Json

namespace CommitRequest

def commit (req : CommitRequest) (head : Fate) (text : String) (db : Database) : CommitInfo :=
  ⟨sha256Hex (hashInput text req.author req.message (currentTimestamp req.now)), headParent head db,
    req.author, req.message, currentTimestamp req.now⟩

def run (lib : JsonLibrary) (fates : CommitFates) (req : CommitRequest) : ArchiveM CommitInfo :=
  commitConfig lib fates req.now req.author req.message req.payload

end CommitRequest

theorem cString_sha256Hex (input : String) : cString (sha256Hex input) = sha256Hex input :=
  cString_eq ((sha256Hex_graphic input).notMem (by decide))

theorem row_sha256 (req : CommitRequest) (head : Fate) (text : String) (db : Database) :
    (req.commit head text db).row.sha256 = (req.commit head text db).sha256 :=
  cString_sha256Hex _

/-- The HEAD query is prepared, the commits row goes in, and the snapshots row
does not. -/
structure Orphans (lib : JsonLibrary) (fates : CommitFates) (req : CommitRequest) (db : Database)
    (text : String) : Prop where
  dumped : lib.dump req.payload = .ok text
  head : ∀ errmsg, fates.head ≠ .prepareFails errmsg
  commit : fates.commit = .runs
  fresh : ∀ row ∈ db.commits, row.sha256 ≠ (req.commit fates.head text db).sha256
  snapshot : fates.snapshot = .runs →
    ∃ row ∈ db.snapshots, row.commitSha256 = (req.commit fates.head text db).sha256

inductive CommitCase (lib : JsonLibrary) (fates : CommitFates) (req : CommitRequest) (db : Database) :
    EStateM.Result Exception Database CommitInfo → Prop
  | refused {e : Exception} (not : ∀ text, ¬ Orphans lib fates req db text) :
      CommitCase lib fates req db (.error e db)
  | orphaned {e : Exception} {text : String} (orphans : Orphans lib fates req db text) :
      CommitCase lib fates req db (.error e { db with
        commits := db.commits ++ [(req.commit fates.head text db).row] })
  | done {text : String} (dumped : lib.dump req.payload = .ok text) (runs : fates.snapshot = .runs)
      (fresh : ∀ row ∈ db.commits, row.sha256 ≠ (req.commit fates.head text db).sha256)
      (snapshot : ∀ row ∈ db.snapshots, row.commitSha256 ≠ (req.commit fates.head text db).sha256) :
      CommitCase lib fates req db (.ok (req.commit fates.head text db)
        (db.withCommit (req.commit fates.head text db) text))

theorem CommitCase.of_ok {lib : JsonLibrary} {fates : CommitFates} {req : CommitRequest}
    {db db' : Database} {commit : CommitInfo} {r : EStateM.Result Exception Database CommitInfo}
    (h : CommitCase lib fates req db r) (hr : r = .ok commit db') :
    ∃ text, commit = req.commit fates.head text db ∧ db' = db.withCommit commit text := by
  cases h with
  | refused => cases hr
  | orphaned => cases hr
  | @done text =>
    injection hr with hcommit hdb
    subst hcommit
    exact ⟨text, rfl, hdb.symm⟩

theorem headCommit_eq {head : Fate} (h : ∀ errmsg, head ≠ .prepareFails errmsg) (db : Database) :
    headCommit head db = .ok (headParent head db) db := by
  cases head with
  | prepareFails errmsg => exact absurd rfl (h errmsg)
  | _ => rfl

theorem insertStatement_ok_runs {fate : Fate} {prepareError stepError : String}
    {insert : Database → Except String Database} {db db' : Database}
    (h : insertStatement fate prepareError stepError insert db = .ok () db') : fate = .runs := by
  cases fate with
  | runs => rfl
  | _ => cases h

theorem not_orphans {lib : JsonLibrary} {fates : CommitFates} {req : CommitRequest} {db : Database}
    {text : String} (hdump : lib.dump req.payload = .ok text) (hruns : fates.snapshot = .runs)
    (hsnapshot : ∀ row ∈ db.snapshots, row.commitSha256 ≠ (req.commit fates.head text db).sha256)
    (text' : String) : ¬ Orphans lib fates req db text' := by
  intro horphans
  obtain rfl : text' = text := Except.ok.inj (horphans.dumped.symm.trans hdump)
  obtain ⟨row, hrow, he⟩ := horphans.snapshot hruns
  exact hsnapshot row hrow he

inductive InsertCase (fates : CommitFates) (commit : CommitInfo) (text : String) (db : Database) :
    EStateM.Result Exception Database CommitInfo → Prop
  | refused {e : Exception}
      (not : ¬ (fates.commit = .runs ∧ ∀ row ∈ db.commits, row.sha256 ≠ commit.sha256)) :
      InsertCase fates commit text db (.error e db)
  | orphaned {e : Exception} (runs : fates.commit = .runs)
      (fresh : ∀ row ∈ db.commits, row.sha256 ≠ commit.sha256)
      (snapshot : fates.snapshot = .runs → ∃ row ∈ db.snapshots, row.commitSha256 = commit.sha256) :
      InsertCase fates commit text db (.error e { db with commits := db.commits ++ [commit.row] })
  | done (runs : fates.snapshot = .runs)
      (fresh : ∀ row ∈ db.commits, row.sha256 ≠ commit.sha256)
      (snapshot : ∀ row ∈ db.snapshots, row.commitSha256 ≠ commit.sha256) :
      InsertCase fates commit text db (.ok commit (db.withCommit commit text))

theorem inserts_cases (fates : CommitFates) {commit : CommitInfo} {text : String}
    (hrow : commit.row.sha256 = commit.sha256) (htext : cString text = text) (db : Database) :
    InsertCase fates commit text db ((do
      insertCommit fates.commit commit
      insertSnapshot fates.snapshot commit.sha256 text
      return commit : ArchiveM CommitInfo) db) := by
  have hid : cString commit.sha256 = commit.sha256 := hrow
  cases hc : insertCommit fates.commit commit db with
  | error e m =>
    obtain ⟨rfl, _⟩ := insertStatement_error hc
    rw [StateExcept.bind_of_error hc]
    refine .refused fun ⟨hruns, hfresh⟩ => ?_
    have hfresh' : ∀ row ∈ m.commits, row.sha256 ≠ commit.row.sha256 := hrow ▸ hfresh
    rw [hruns, insertCommit_eq hfresh'] at hc
    cases hc
  | ok u m =>
    obtain ⟨hfresh, rfl⟩ := insertCommit_ok hc
    rw [hrow] at hfresh
    rw [StateExcept.bind_of_ok hc]
    cases hs : insertSnapshot fates.snapshot commit.sha256 text
        { db with commits := db.commits ++ [commit.row] } with
    | error e m =>
      obtain ⟨rfl, _⟩ := insertStatement_error hs
      rw [StateExcept.bind_of_error hs]
      refine .orphaned (insertStatement_ok_runs hc) hfresh fun hruns => ?_
      by_contra hnone
      have hnew : ∀ row ∈ db.snapshots, row.commitSha256 ≠ cString commit.sha256 := by
        intro row hmem he
        exact hnone ⟨row, hmem, he.trans hid⟩
      have hok := @insertSnapshot_eq commit.sha256 text
        { db with commits := db.commits ++ [commit.row] } hnew
      rw [hruns, hok] at hs
      cases hs
    | ok u m =>
      obtain ⟨hnew, rfl⟩ := insertSnapshot_ok hs
      rw [hid] at hnew
      rw [StateExcept.bind_of_ok hs, htext, hid]
      have hdone := @InsertCase.done fates commit text db (insertStatement_ok_runs hs) hfresh hnew
      rw [Database.withCommit, hrow] at hdone
      exact hdone

theorem InsertCase.commitCase {lib : JsonLibrary} {fates : CommitFates} {req : CommitRequest}
    {db : Database} {text : String} {r : EStateM.Result Exception Database CommitInfo}
    (h : InsertCase fates (req.commit fates.head text db) text db r)
    (hdump : lib.dump req.payload = .ok text) (hhead : ∀ errmsg, fates.head ≠ .prepareFails errmsg) :
    CommitCase lib fates req db r := by
  cases h with
  | refused hnot =>
    refine .refused fun text' horphans => ?_
    obtain rfl : text' = text := Except.ok.inj (horphans.dumped.symm.trans hdump)
    exact hnot ⟨horphans.commit, horphans.fresh⟩
  | orphaned hruns hfresh hsnapshot => exact .orphaned ⟨hdump, hhead, hruns, hfresh, hsnapshot⟩
  | done hruns hfresh hsnapshot => exact .done hdump hruns hfresh hsnapshot

theorem commitConfig_cases (lib : JsonLibrary) (fates : CommitFates) (req : CommitRequest)
    (db : Database) : CommitCase lib fates req db (req.run lib fates db) := by
  rw [CommitRequest.run, commitConfig]
  cases hdump : lib.dump req.payload with
  | error what =>
    have hd : dumpPayload lib req.payload db = .error (.jsonTypeError what) db := by
      simp only [dumpPayload, hdump]
    rw [StateExcept.bind_of_error hd]
    refine .refused fun text horphans => ?_
    rw [horphans.dumped] at hdump
    cases hdump
  | ok text =>
    have hd : dumpPayload lib req.payload db = .ok text db := by simp only [dumpPayload, hdump]
    rw [StateExcept.bind_of_ok hd]
    by_cases hhead : ∀ errmsg, fates.head ≠ .prepareFails errmsg
    · rw [StateExcept.bind_of_ok (headCommit_eq hhead db)]
      have hinserts := inserts_cases fates (row_sha256 req fates.head text db)
        (cString_eq (lib.dump_noNul _ _ hdump)) db
      exact hinserts.commitCase hdump hhead
    · push Not at hhead
      obtain ⟨errmsg, hprepare⟩ := hhead
      have hh : headCommit fates.head db =
          .error (.configArchiveError ("failed to prepare HEAD query: " ++ errmsg)) db := by
        rw [hprepare]
        rfl
      rw [StateExcept.bind_of_error hh]
      exact .refused fun _ horphans => horphans.head errmsg hprepare

/-! ### Runs -/

inductive ArchiveCall
  | commit (fates : CommitFates) (req : CommitRequest)
  | record (fate : Fate) (now : Int) (commitSha256 : String)
  | history (fate : QueryFate) (limit : Int32)
  | snapshot (fate : Fate) (commitSha256 : String)
  | reopen

def ArchiveCall.Orphans (lib : JsonLibrary) (db : Database) : ArchiveCall → Prop
  | .commit fates req => ∃ text, Openaslc.Orphans lib fates req db text
  | _ => False

/-- The file, and the commits that returned, oldest first, with their payloads. -/
structure ArchiveRun where
  db : Database := {}
  committed : List (CommitInfo × Json) := []

namespace ArchiveRun

def step (lib : JsonLibrary) (r : ArchiveRun) : ArchiveCall → ArchiveRun
  | .commit fates req =>
    match req.run lib fates r.db with
    | .ok commit db => ⟨db, r.committed ++ [(commit, req.payload)]⟩
    | .error _ db => { r with db }
  | .record fate now sha256 => { r with db := StateExcept.final (recordDeployment fate now sha256 r.db) }
  | .history fate limit => { r with db := StateExcept.final (getCommitHistory fate limit r.db) }
  | .snapshot fate sha256 => { r with db := StateExcept.final (getSnapshot lib fate sha256 r.db) }
  | .reopen => { r with db := createTables (some r.db) }

def run (lib : JsonLibrary) (r : ArchiveRun) (calls : List ArchiveCall) : ArchiveRun :=
  calls.foldl (step lib) r

inductive StepCase (lib : JsonLibrary) (r : ArchiveRun) : ArchiveCall → ArchiveRun → Prop
  | same {call : ArchiveCall} {db : Database} (not : ¬ call.Orphans lib r.db)
      (commits : db.commits = r.db.commits) (snapshots : db.snapshots = r.db.snapshots) :
      StepCase lib r call { r with db }
  | orphaned {fates : CommitFates} {req : CommitRequest} {text : String}
      (orphans : Orphans lib fates req r.db text) :
      StepCase lib r (.commit fates req) { r with db := { r.db with
        commits := r.db.commits ++ [(req.commit fates.head text r.db).row] } }
  | done {fates : CommitFates} {req : CommitRequest} {text : String} {commit : CommitInfo}
      (made : commit = req.commit fates.head text r.db)
      (not : ¬ (ArchiveCall.commit fates req).Orphans lib r.db) (dumped : lib.dump req.payload = .ok text)
      (fresh : ∀ row ∈ r.db.commits, row.sha256 ≠ commit.sha256)
      (snapshot : ∀ row ∈ r.db.snapshots, row.commitSha256 ≠ commit.sha256) :
      StepCase lib r (.commit fates req)
        ⟨r.db.withCommit commit text, r.committed ++ [(commit, req.payload)]⟩

theorem recordDeployment_tables (fate : Fate) (now : Int) (sha256 : String) (db : Database) :
    (StateExcept.final (recordDeployment fate now sha256 db)).commits = db.commits ∧
      (StateExcept.final (recordDeployment fate now sha256 db)).snapshots = db.snapshots := by
  cases fate with
  | _ => exact ⟨rfl, rfl⟩

theorem getCommitHistory_final (fate : QueryFate) (limit : Int32) (db : Database) :
    StateExcept.final (getCommitHistory fate limit db) = db := by
  cases fate with
  | _ => rfl

theorem getSnapshot_final (lib : JsonLibrary) (fate : Fate) (sha256 : String) (db : Database) :
    StateExcept.final (getSnapshot lib fate sha256 db) = db := by
  unfold getSnapshot
  split
  · rfl
  · split
    · rfl
    · split <;> rfl

theorem step_cases (lib : JsonLibrary) (r : ArchiveRun) (call : ArchiveCall) :
    StepCase lib r call (step lib r call) := by
  cases call with
  | commit fates req =>
    have hcase := commitConfig_cases lib fates req r.db
    rw [step]
    generalize req.run lib fates r.db = result at hcase
    cases hcase with
    | refused hnot => exact .same (fun ⟨text, h⟩ => hnot text h) rfl rfl
    | orphaned horphans => exact .orphaned horphans
    | done hdump hruns hfresh hsnapshot =>
      have hnot := not_orphans hdump hruns hsnapshot
      exact .done rfl (fun ⟨text, h⟩ => hnot text h) hdump hfresh hsnapshot
  | record fate now sha256 =>
    obtain ⟨hcommits, hsnapshots⟩ := recordDeployment_tables fate now sha256 r.db
    exact .same not_false hcommits hsnapshots
  | history fate limit =>
    have hfinal := getCommitHistory_final fate limit r.db
    exact .same not_false (congrArg Database.commits hfinal) (congrArg Database.snapshots hfinal)
  | snapshot fate sha256 =>
    have hfinal := getSnapshot_final lib fate sha256 r.db
    exact .same not_false (congrArg Database.commits hfinal) (congrArg Database.snapshots hfinal)
  | reopen => exact .same not_false rfl rfl

def Along (lib : JsonLibrary) (C : Database → ArchiveCall → Prop) : ArchiveRun → List ArchiveCall → Prop
  | _, [] => True
  | r, call :: rest => C r.db call ∧ Along lib C (step lib r call) rest

theorem along_of_forall (lib : JsonLibrary) {P : ArchiveCall → Prop} (r : ArchiveRun)
    {calls : List ArchiveCall} (h : ∀ call ∈ calls, P call) :
    Along lib (fun _ call => P call) r calls := by
  induction calls generalizing r with
  | nil => trivial
  | cons call rest ih =>
    exact ⟨h call List.mem_cons_self, ih _ fun c hc => h c (List.mem_cons_of_mem _ hc)⟩

theorem run_invariant {lib : JsonLibrary} {C : Database → ArchiveCall → Prop}
    (I : ArchiveRun → Prop)
    (hstep : ∀ r r' call, I r → C r.db call → StepCase lib r call r' → I r') {r : ArchiveRun}
    {calls : List ArchiveCall} (hstart : I r) (hcalls : Along lib C r calls) :
    I (run lib r calls) := by
  induction calls generalizing r with
  | nil => exact hstart
  | cons call rest ih =>
    have hnext := hstep r _ call hstart hcalls.1 (step_cases lib r call)
    exact ih hnext hcalls.2

end ArchiveRun

end Openaslc
