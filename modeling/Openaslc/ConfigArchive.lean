import Openaslc.Json
import Openaslc.Sha256
import Openaslc.StateExcept
import Openaslc.StandardLibrary

/-! The version history. Each statement is atomic, and any of them may fail
when it is prepared or when it is stepped. -/

namespace Openaslc

structure CommitInfo where
  sha256 : String
  parentSha256 : Option String
  author : String
  message : String
  createdAt : String
  deriving DecidableEq

/-- The row as SQLite binds it. -/
def CommitInfo.row (commit : CommitInfo) : CommitInfo :=
  ⟨cString commit.sha256, commit.parentSha256.map cString, cString commit.author,
    cString commit.message, cString commit.createdAt⟩

structure SnapshotRow where
  commitSha256 : String
  payload : String
  deriving DecidableEq

structure DeploymentRow where
  commitSha256 : String
  deployedAt : String
  status : String
  deriving DecidableEq

/-- The tables, each in the order of its rowids. -/
structure Database where
  commits : List CommitInfo := []
  snapshots : List SnapshotRow := []
  deployments : List DeploymentRow := []

/-- What SQLite does with one statement, with its error message. A statement
that runs can still violate a constraint. -/
inductive Fate
  | runs
  | prepareFails (errmsg : String)
  | stepFails (errmsg : String)

abbrev ArchiveM := EStateM Exception Database

theorem cString_eq {s : String} (h : Char.ofNat 0 ∉ s.toList) : cString s = s := by
  have hall : ∀ c ∈ s.toList, (decide (c ≠ Char.ofNat 0)) = true := by
    intro c hc
    exact decide_eq_true fun he => h (he ▸ hc)
  rw [cString, List.takeWhile_eq_self_iff.mpr hall, String.ofList_toList]

def insertStatement (fate : Fate) (prepareError stepError : String)
    (insert : Database → Except String Database) : ArchiveM Unit := fun db =>
  match fate with
  | .prepareFails errmsg => .error (.configArchiveError (prepareError ++ errmsg)) db
  | .stepFails errmsg => .error (.configArchiveError (stepError ++ errmsg)) db
  | .runs =>
    match insert db with
    | .ok db' => .ok () db'
    | .error errmsg => .error (.configArchiveError (stepError ++ errmsg)) db

/-- The commit with the highest rowid. A step that fails reads like an empty
table. -/
def headCommit (fate : Fate) : ArchiveM (Option String) := fun db =>
  match fate with
  | .prepareFails errmsg =>
    .error (.configArchiveError ("failed to prepare HEAD query: " ++ errmsg)) db
  | .stepFails _ => .ok none db
  | .runs => .ok (db.commits.getLast?.map CommitInfo.sha256) db

def insertCommit (fate : Fate) (commit : CommitInfo) : ArchiveM Unit :=
  insertStatement fate "failed to prepare commit insert: " "failed to insert commit: " fun db =>
    if db.commits.any fun row => row.sha256 == commit.row.sha256 then
      .error "UNIQUE constraint failed: commits.sha256"
    else
      .ok { db with commits := db.commits ++ [commit.row] }

def insertSnapshot (fate : Fate) (sha256 payload : String) : ArchiveM Unit :=
  insertStatement fate "failed to prepare snapshot insert: " "failed to insert snapshot: " fun db =>
    if db.snapshots.any fun row => row.commitSha256 == cString sha256 then
      .error "UNIQUE constraint failed: snapshots.commit_sha256"
    else .ok { db with snapshots := db.snapshots ++ [⟨cString sha256, cString payload⟩] }

structure CommitFates where
  head : Fate
  commit : Fate
  snapshot : Fate

def dumpPayload (lib : JsonLibrary) (payload : Json) : ArchiveM String := fun db =>
  match lib.dump payload with
  | .ok text => .ok text db
  | .error what => .error (.jsonTypeError what) db

/-- The string whose hash is the id of a commit. -/
def hashInput (payloadStr author message createdAt : String) : String :=
  payloadStr ++ "\n" ++ author ++ "\n" ++ message ++ "\n" ++ createdAt

def commitConfig (lib : JsonLibrary) (fates : CommitFates) (now : Int)
    (author message : String) (payload : Json) : ArchiveM CommitInfo := do
  let payloadStr ← dumpPayload lib payload
  let createdAt := currentTimestamp now
  let parent ← headCommit fates.head
  let sha256 := sha256Hex (hashInput payloadStr author message createdAt)
  let commit : CommitInfo := ⟨sha256, parent, author, message, createdAt⟩
  insertCommit fates.commit commit
  insertSnapshot fates.snapshot sha256 payloadStr
  return commit

def recordDeployment (fate : Fate) (now : Int) (commitSha256 : String) : ArchiveM Unit :=
  insertStatement fate "failed to prepare deployment insert: " "failed to insert deployment: " fun db =>
    .ok { db with deployments := db.deployments ++
      [⟨cString commitSha256, cString (currentTimestamp now), "active"⟩] }

/-! ### What a call has done when it returns, and when it throws -/

def Database.withCommit (db : Database) (commit : CommitInfo) (payload : String) : Database :=
  { db with
    commits := db.commits ++ [commit.row]
    snapshots := db.snapshots ++ [⟨commit.row.sha256, payload⟩] }

def Database.withDeployment (db : Database) (commitSha256 : String) (now : Int) : Database :=
  { db with
    deployments := db.deployments ++
      [⟨cString commitSha256, cString (currentTimestamp now), "active"⟩] }

theorem insertStatement_ok {fate : Fate} {prepareError stepError : String}
    {insert : Database → Except String Database} {db db' : Database}
    (h : insertStatement fate prepareError stepError insert db = .ok () db') :
    insert db = .ok db' := by
  cases fate with
  | runs =>
    simp only [insertStatement] at h
    split at h
    · next db₁ hins =>
      cases h
      exact hins
    · cases h
  | prepareFails errmsg => cases h
  | stepFails errmsg => cases h

theorem insertStatement_error {fate : Fate} {prepareError stepError : String}
    {insert : Database → Except String Database} {db db' : Database} {e : Exception}
    (h : insertStatement fate prepareError stepError insert db = .error e db') :
    db' = db ∧ ∃ what, e = .configArchiveError what := by
  cases fate with
  | runs =>
    simp only [insertStatement] at h
    split at h
    · cases h
    · cases h
      exact ⟨rfl, _, rfl⟩
  | prepareFails errmsg =>
    cases h
    exact ⟨rfl, _, rfl⟩
  | stepFails errmsg =>
    cases h
    exact ⟨rfl, _, rfl⟩

theorem insertCommit_ok {fate : Fate} {commit : CommitInfo} {db db' : Database}
    (h : insertCommit fate commit db = .ok () db') :
    (∀ row ∈ db.commits, row.sha256 ≠ commit.row.sha256) ∧
      db' = { db with commits := db.commits ++ [commit.row] } := by
  have hins := insertStatement_ok h
  split at hins
  · cases hins
  · next hany =>
    exact ⟨by simpa using hany, (Except.ok.inj hins).symm⟩

theorem insertSnapshot_ok {fate : Fate} {sha256 payload : String} {db db' : Database}
    (h : insertSnapshot fate sha256 payload db = .ok () db') :
    (∀ row ∈ db.snapshots, row.commitSha256 ≠ cString sha256) ∧
      db' = { db with snapshots := db.snapshots ++ [⟨cString sha256, cString payload⟩] } := by
  have hins := insertStatement_ok h
  split at hins
  · cases hins
  · next hany =>
    exact ⟨by simpa using hany, (Except.ok.inj hins).symm⟩

theorem headCommit_ok {fate : Fate} {parent : Option String} {db db' : Database}
    (h : headCommit fate db = .ok parent db') : db' = db := by
  cases fate with
  | prepareFails errmsg => cases h
  | _ =>
    cases h
    rfl

theorem headCommit_error {fate : Fate} {db db' : Database} {e : Exception}
    (h : headCommit fate db = .error e db') : db' = db ∧ ∃ what, e = .configArchiveError what := by
  cases fate with
  | prepareFails errmsg =>
    cases h
    exact ⟨rfl, _, rfl⟩
  | _ => cases h

theorem dumpPayload_ok {lib : JsonLibrary} {payload : Json} {text : String} {db db' : Database}
    (h : dumpPayload lib payload db = .ok text db') : db' = db ∧ lib.dump payload = .ok text := by
  rw [dumpPayload] at h
  split at h
  · next t ht =>
    cases h
    exact ⟨rfl, ht⟩
  · cases h

theorem dumpPayload_error {lib : JsonLibrary} {payload : Json} {db db' : Database} {e : Exception}
    (h : dumpPayload lib payload db = .error e db') : db' = db ∧ ∃ what, e = .jsonTypeError what := by
  rw [dumpPayload] at h
  split at h
  · cases h
  · cases h
    exact ⟨rfl, _, rfl⟩

theorem insertCommit_eq {commit : CommitInfo} {db : Database}
    (h : ∀ row ∈ db.commits, row.sha256 ≠ commit.row.sha256) :
    insertCommit .runs commit db = .ok () { db with commits := db.commits ++ [commit.row] } := by
  have hany : ¬ (db.commits.any fun row => row.sha256 == commit.row.sha256) = true := by
    simpa using h
  simp only [insertCommit, insertStatement, if_neg hany]

theorem insertSnapshot_eq {sha256 : String} (payload : String) {db : Database}
    (h : ∀ row ∈ db.snapshots, row.commitSha256 ≠ cString sha256) :
    insertSnapshot .runs sha256 payload db = .ok () { db with
      snapshots := db.snapshots ++ [⟨cString sha256, cString payload⟩] } := by
  have hany : ¬ (db.snapshots.any fun row => row.commitSha256 == cString sha256) = true := by
    simpa using h
  simp only [insertSnapshot, insertStatement, if_neg hany]

/-- Statements that run and an id that is new: the call returns. -/
theorem commitConfig_eq {lib : JsonLibrary} {payload : Json} {text : String} {db : Database}
    (hdump : lib.dump payload = .ok text) (now : Int) (author message : String)
    {commit : CommitInfo}
    (hcommit : commit = ⟨sha256Hex (hashInput text author message (currentTimestamp now)),
      db.commits.getLast?.map CommitInfo.sha256, author, message, currentTimestamp now⟩)
    (hcommits : ∀ row ∈ db.commits, row.sha256 ≠ commit.row.sha256)
    (hsnapshots : ∀ row ∈ db.snapshots, row.commitSha256 ≠ commit.row.sha256) :
    commitConfig lib ⟨.runs, .runs, .runs⟩ now author message payload db =
      .ok commit (db.withCommit commit text) := by
  have hd : dumpPayload lib payload db = .ok text db := by simp only [dumpPayload, hdump]
  have hc := insertCommit_eq hcommits
  have hs : insertSnapshot .runs commit.sha256 text { db with
      commits := db.commits ++ [commit.row] } = .ok () (db.withCommit commit (cString text)) :=
    insertSnapshot_eq text hsnapshots
  rw [cString_eq (lib.dump_noNul payload text hdump)] at hs
  subst hcommit
  exact StateExcept.bind_eq_ok.mpr ⟨text, db, hd, StateExcept.bind_eq_ok.mpr ⟨_, db, rfl,
    StateExcept.bind_eq_ok.mpr ⟨(), _, hc, StateExcept.bind_eq_ok.mpr ⟨(), _, hs, rfl⟩⟩⟩⟩

/-- A call that returns has added one commit and the snapshot of its payload,
under an id that neither table held. -/
theorem commitConfig_ok {lib : JsonLibrary} {fates : CommitFates} {now : Int}
    {author message : String} {payload : Json} {commit : CommitInfo} {db db' : Database}
    (h : commitConfig lib fates now author message payload db = .ok commit db') :
    ∃ text, lib.dump payload = .ok text ∧
      (∀ row ∈ db.snapshots, row.commitSha256 ≠ commit.row.sha256) ∧
      db' = db.withCommit commit text := by
  obtain ⟨text, m₁, hdump, h₁⟩ := StateExcept.bind_eq_ok.mp h
  obtain ⟨rfl, htext⟩ := dumpPayload_ok hdump
  obtain ⟨parent, m₂, hhead, h₂⟩ := StateExcept.bind_eq_ok.mp h₁
  obtain rfl := headCommit_ok hhead
  obtain ⟨⟨⟩, m₃, hcommit, h₃⟩ := StateExcept.bind_eq_ok.mp h₂
  obtain ⟨⟨⟩, m₄, hsnapshot, h₄⟩ := StateExcept.bind_eq_ok.mp h₃
  obtain ⟨_, rfl⟩ := insertCommit_ok hcommit
  obtain ⟨hfresh, rfl⟩ := insertSnapshot_ok hsnapshot
  simp only [StateExcept.pure_eq, EStateM.Result.ok.injEq] at h₄
  obtain ⟨rfl, rfl⟩ := h₄
  exact ⟨text, htext, hfresh, by rw [cString_eq (lib.dump_noNul payload text htext)]; rfl⟩

theorem commitConfig_error {lib : JsonLibrary} {fates : CommitFates} {now : Int}
    {author message : String} {payload : Json} {e : Exception} {db db' : Database}
    (h : commitConfig lib fates now author message payload db = .error e db') :
    (db'.snapshots = db.snapshots ∧ db'.deployments = db.deployments) ∧
      ((∃ what, e = .jsonTypeError what) ∨ ∃ what, e = .configArchiveError what) := by
  rcases StateExcept.bind_eq_error.mp h with hdump | ⟨text, m₁, hdump, h₁⟩
  · obtain ⟨rfl, what, rfl⟩ := dumpPayload_error hdump
    exact ⟨⟨rfl, rfl⟩, .inl ⟨what, rfl⟩⟩
  obtain ⟨rfl, _⟩ := dumpPayload_ok hdump
  rcases StateExcept.bind_eq_error.mp h₁ with hhead | ⟨parent, m₂, hhead, h₂⟩
  · obtain ⟨rfl, hwhat⟩ := headCommit_error hhead
    exact ⟨⟨rfl, rfl⟩, .inr hwhat⟩
  obtain rfl := headCommit_ok hhead
  rcases StateExcept.bind_eq_error.mp h₂ with hcommit | ⟨⟨⟩, m₃, hcommit, h₃⟩
  · obtain ⟨rfl, hwhat⟩ := insertStatement_error hcommit
    exact ⟨⟨rfl, rfl⟩, .inr hwhat⟩
  obtain ⟨_, rfl⟩ := insertCommit_ok hcommit
  rcases StateExcept.bind_eq_error.mp h₃ with hsnapshot | ⟨⟨⟩, m₄, _, h₄⟩
  · obtain ⟨rfl, hwhat⟩ := insertStatement_error hsnapshot
    exact ⟨⟨rfl, rfl⟩, .inr hwhat⟩
  · simp [StateExcept.pure_eq] at h₄

theorem recordDeployment_eq (now : Int) (commitSha256 : String) (db : Database) :
    recordDeployment .runs now commitSha256 db = .ok () (db.withDeployment commitSha256 now) := rfl

theorem recordDeployment_ok {fate : Fate} {now : Int} {commitSha256 : String} {db db' : Database}
    (h : recordDeployment fate now commitSha256 db = .ok () db') :
    db' = db.withDeployment commitSha256 now := by
  rw [recordDeployment] at h
  have hins := insertStatement_ok h
  exact (Except.ok.inj hins).symm

end Openaslc
