import Openaslc.DeployStatus
import Openaslc.JsonText
import Openaslc.Machine

/-! Concurrent deploys. Each request swaps, then commits, then records; the
three steps are atomic, and the steps of other requests come in between. -/

namespace Openaslc

/-- The local variables of a handler, and its answer once it is done. -/
structure DeployLocals where
  program : Option (Json × Nat) := none
  commit : Option CommitInfo := none
  status : Option Nat := none

structure DeploySystem (ι : Type) where
  server : WebServer
  locals : ι → DeployLocals

namespace DeploySystem

inductive Event (ι : Type)
  | swap (i : ι)
  | commit (i : ι) (env : DeployEnv)
  | record (i : ι) (env : DeployEnv)

variable {ι : Type}

def lastSwap (events : List (Event ι)) : Option ι :=
  events.foldl (fun last e => match e with | .swap i => some i | _ => last) none

def lastRecord (events : List (Event ι)) : Option ι :=
  events.foldl (fun last e => match e with | .record i _ => some i | _ => last) none

theorem lastSwap_concat (events : List (Event ι)) (e : Event ι) :
    lastSwap (events ++ [e]) = match e with | .swap i => some i | _ => lastSwap events := by
  simp only [lastSwap, List.foldl_append, List.foldl_cons, List.foldl_nil]

theorem lastRecord_concat (events : List (Event ι)) (e : Event ι) :
    lastRecord (events ++ [e]) = match e with | .record i _ => some i | _ => lastRecord events := by
  simp only [lastRecord, List.foldl_append, List.foldl_cons, List.foldl_nil]

variable [DecidableEq ι]

def set (s : DeploySystem ι) (i : ι) (server : WebServer) (l : DeployLocals) : DeploySystem ι :=
  ⟨server, Function.update s.locals i l⟩

/-- The request is answered. For an exception that leaves the handler the
HTTP library answers 500. -/
def answer (s : DeploySystem ι) (i : ι) (result : EStateM.Result Exception WebServer Response) :
    DeploySystem ι :=
  match result with
  | .ok res server => s.set i server { s.locals i with status := some res.status }
  | .error _ server => s.set i server { s.locals i with status := some 500 }

def swapStep (lib : JsonLibrary) (req : ι → DeployRequest) (s : DeploySystem ι) (i : ι) :
    DeploySystem ι :=
  match deploySwap lib (req i) s.server with
  | .ok program server => s.set i server { s.locals i with program := some program }
  | .error e server => s.answer i (deployCatch lib e server)

def commitStep (lib : JsonLibrary) (req : ι → DeployRequest) (s : DeploySystem ι) (i : ι)
    (env : DeployEnv) (db : Database) (doc : Json) : DeploySystem ι :=
  match onArchive db (deployCommit lib (req i) env doc) s.server with
  | .ok commit server => s.set i server { s.locals i with commit := some commit }
  | .error e server => s.answer i (deployCatch lib e server)

def recordStep (lib : JsonLibrary) (req : ι → DeployRequest) (s : DeploySystem ι) (i : ι)
    (env : DeployEnv) (db : Database) (program : Nat) (commit : CommitInfo) : DeploySystem ι :=
  match onArchive db (deployRecord env commit) s.server with
  | .ok () server => s.answer i (deployArchived lib (req i) program commit server)
  | .error e server => s.answer i (deployCatch lib e server)

def step (lib : JsonLibrary) (req : ι → DeployRequest) (s : DeploySystem ι) :
    Event ι → Option (DeploySystem ι)
  | .swap i =>
    match s.locals i with
    | ⟨none, none, none⟩ => some (s.swapStep lib req i)
    | _ => none
  | .commit i env =>
    match s.locals i, s.server.archive with
    | ⟨some (doc, _), none, none⟩, some db => some (s.commitStep lib req i env db doc)
    | _, _ => none
  | .record i env =>
    match s.locals i, s.server.archive with
    | ⟨some (_, program), some commit, none⟩, some db =>
      some (s.recordStep lib req i env db program commit)
    | _, _ => none

abbrev run (lib : JsonLibrary) (req : ι → DeployRequest) :
    DeploySystem ι → List (Event ι) → Option (DeploySystem ι) := Machine.run (step lib req)

/-! ### The claim of a deployments row -/

def CurrentDocument (s : DeploySystem ι) (doc : Json) : Prop :=
  ∃ i a, (s.locals i).program = some (doc, a) ∧ s.server.runtime.current = some a

/-- The text of a snapshot of the commit that the last deployments row names. -/
def RecordedSnapshot (s : DeploySystem ι) (text : String) : Prop :=
  ∃ db row snapshot, s.server.archive = some db ∧ db.deployments.getLast? = some row ∧
    snapshot ∈ db.snapshots ∧ snapshot.commitSha256 = row.commitSha256 ∧ snapshot.payload = text

def Agrees (lib : JsonLibrary) (s : DeploySystem ι) : Prop :=
  ∃ doc text, s.CurrentDocument doc ∧ lib.dump doc = .ok text ∧ s.RecordedSnapshot text

/-- The request that swaps last and the one that records last have documents
with the same text. -/
def SameText (lib : JsonLibrary) (req : ι → DeployRequest) (events : List (Event ι)) : Prop :=
  ∃ i j doc doc' text, lastSwap events = some i ∧ lastRecord events = some j ∧
    lib.parse (req i).body = .ok doc ∧ lib.parse (req j).body = .ok doc' ∧
    lib.dump doc = .ok text ∧ lib.dump doc' = .ok text

/-! ### What a step does -/

def Event.request : Event ι → ι
  | .swap i => i
  | .commit i _ => i
  | .record i _ => i

inductive StepCase (lib : JsonLibrary) (req : ι → DeployRequest) (s : DeploySystem ι) :
    Event ι → DeploySystem ι → Prop
  | swapped {i : ι} {doc : Json} {server : WebServer} (fresh : s.locals i = {})
      (parsed : lib.parse (req i).body = .ok doc)
      (current : server.runtime.current = some s.server.runtime.objects.length)
      (length : server.runtime.objects.length = s.server.runtime.objects.length + 1)
      (archive : server.archive = s.server.archive) :
      StepCase lib req s (.swap i)
        (s.set i server { program := some (doc, s.server.runtime.objects.length) })
  | committed {i : ι} {env : DeployEnv} {doc : Json} {a : Nat} {db db' : Database} {text : String}
      {commit : CommitInfo} (here : s.locals i = { program := some (doc, a) })
      (archive : s.server.archive = some db) (dumped : lib.dump doc = .ok text)
      (fresh : ∀ row ∈ db.snapshots, row.commitSha256 ≠ commit.row.sha256)
      (snapshots : db'.snapshots = db.snapshots ++ [⟨commit.row.sha256, text⟩])
      (deployments : db'.deployments = db.deployments) :
      StepCase lib req s (.commit i env) (s.set i { s.server with archive := some db' }
        { program := some (doc, a), commit := some commit })
  | recorded {i : ι} {env : DeployEnv} {doc : Json} {a status : Nat} {db : Database}
      {row : DeploymentRow} {commit : CommitInfo} {server : WebServer}
      (here : s.locals i = { program := some (doc, a), commit := some commit })
      (archive : s.server.archive = some db) (names : row.commitSha256 = commit.row.sha256)
      (runtime : server.runtime = s.server.runtime)
      (archive' : server.archive = some { db with deployments := db.deployments ++ [row] }) :
      StepCase lib req s (.record i env) (s.set i server
        { program := some (doc, a), commit := some commit, status := some status })
  | failed {e : Event ι} {status : Nat} {server : WebServer}
      (unanswered : (s.locals e.request).status = none) (bad : status ≠ 200)
      (runtime : server.runtime = s.server.runtime)
      (archive : ∀ db, s.server.archive = some db → ∃ db', server.archive = some db' ∧
        db'.snapshots = db.snapshots ∧ db'.deployments = db.deployments) :
      StepCase lib req s e (s.set e.request server
        { s.locals e.request with status := some status })

/-- A handler whose step threw is answered by its `catch` clauses or the
library, and not with 200. -/
theorem answer_catch (lib : JsonLibrary) (s : DeploySystem ι) (i : ι) (e : Exception)
    (server : WebServer) :
    ∃ status server', s.answer i (deployCatch lib e server) =
      s.set i server' { s.locals i with status := some status } ∧ status ≠ 200 ∧
      SameState server server' := by
  rcases deployCatch_cases lib e server with ⟨res, s', hok, hstatus, hsame⟩ | ⟨e', s', herr, hsame⟩
  · exact ⟨res.status, s', by rw [hok]; rfl, by omega, hsame⟩
  · exact ⟨500, s', by rw [herr]; rfl, by omega, hsame⟩

theorem swapStep_case {lib : JsonLibrary} {req : ι → DeployRequest} {s : DeploySystem ι} {i : ι}
    (h : s.locals i = {}) : StepCase lib req s (.swap i) (s.swapStep lib req i) := by
  rw [swapStep]
  split
  · next program server hswap =>
    obtain ⟨doc, a⟩ := program
    obtain ⟨hparse, runtime, hreload, rfl⟩ := deploySwap_ok hswap
    obtain ⟨prog, _, rfl, rfl⟩ := LogicRuntime.reloadFromJson_ok hreload
    rw [h]
    exact .swapped h hparse rfl (LogicRuntime.length_allocate _ _) rfl
  · next e server hswap =>
    obtain ⟨rfl, _⟩ := deploySwap_error hswap
    obtain ⟨status, server', hans, hbad, hrt, har⟩ := answer_catch lib s i e s.server
    rw [hans]
    exact StepCase.failed (by simp [Event.request, h]) hbad hrt
      fun db hdb => ⟨db, har.trans hdb, rfl, rfl⟩

theorem commitStep_case {lib : JsonLibrary} {req : ι → DeployRequest} {s : DeploySystem ι} {i : ι}
    {env : DeployEnv} {db : Database} {doc : Json} {a : Nat}
    (h : s.locals i = { program := some (doc, a) }) (hdb : s.server.archive = some db) :
    StepCase lib req s (.commit i env) (s.commitStep lib req i env db doc) := by
  rw [commitStep]
  split
  · next commit server hcommit =>
    obtain ⟨db', hx, rfl⟩ := onArchive_ok hcommit
    obtain ⟨text, htext, hfresh, rfl⟩ := commitConfig_ok hx
    rw [h]
    exact .committed h hdb htext hfresh rfl rfl
  · next e server hcommit =>
    obtain ⟨db', hx, rfl⟩ := onArchive_error hcommit
    obtain ⟨⟨hsnap, hdep⟩, _⟩ := commitConfig_error hx
    obtain ⟨status, server', hans, hbad, hrt, har⟩ := answer_catch lib s i e
      { s.server with archive := some db' }
    rw [hans]
    refine StepCase.failed (by simp [Event.request, h]) hbad hrt fun db₀ hdb₀ => ?_
    obtain rfl : db = db₀ := Option.some.inj (hdb.symm.trans hdb₀)
    exact ⟨db', har, hsnap, hdep⟩

theorem recordStep_case {lib : JsonLibrary} {req : ι → DeployRequest} {s : DeploySystem ι} {i : ι}
    {env : DeployEnv} {db : Database} {doc : Json} {a : Nat} {commit : CommitInfo}
    (h : s.locals i = { program := some (doc, a), commit := some commit })
    (hdb : s.server.archive = some db) :
    StepCase lib req s (.record i env) (s.recordStep lib req i env db a commit) := by
  rw [recordStep]
  split
  · next server hrecord =>
    obtain ⟨db', hx, rfl⟩ := onArchive_ok hrecord
    obtain rfl := recordDeployment_ok hx
    rcases deployArchived_answers lib (req i) a commit
        { s.server with archive := some (db.withDeployment commit.sha256 env.deployedAt) }
      with ⟨res, server', hok, _, hrt, har⟩ | ⟨what, server', herr, ⟨hrt, har⟩, _⟩
    · rw [hok, answer, h]
      exact .recorded h hdb rfl hrt har
    · rw [herr, answer, h]
      exact .recorded h hdb rfl hrt har
  · next e server hrecord =>
    obtain ⟨db', hx, rfl⟩ := onArchive_error hrecord
    rw [deployRecord, recordDeployment] at hx
    obtain ⟨rfl, _⟩ := insertStatement_error hx
    obtain ⟨status, server', hans, hbad, hrt, har⟩ := answer_catch lib s i e
      { s.server with archive := some db' }
    rw [hans]
    refine StepCase.failed (by simp [Event.request, h]) hbad hrt fun db₀ hdb₀ => ?_
    exact ⟨db', har, by rw [Option.some.inj (hdb.symm.trans hdb₀)],
      by rw [Option.some.inj (hdb.symm.trans hdb₀)]⟩

theorem step_case {lib : JsonLibrary} {req : ι → DeployRequest} {s s' : DeploySystem ι}
    {e : Event ι} (h : step lib req s e = some s') : StepCase lib req s e s' := by
  cases e with
  | swap i =>
    simp only [step] at h
    split at h
    · next hl =>
      cases h
      exact swapStep_case hl
    · cases h
  | commit i env =>
    simp only [step] at h
    split at h
    · next doc a db hl hdb =>
      cases h
      exact commitStep_case hl hdb
    · cases h
  | record i env =>
    simp only [step] at h
    split at h
    · next doc a commit db hl hdb =>
      cases h
      exact recordStep_case hl hdb
    · cases h

/-! ### What every run keeps -/

theorem locals_set (s : DeploySystem ι) (i j : ι) (server : WebServer) (l : DeployLocals) :
    (s.set i server l).locals j = if j = i then l else s.locals j := by
  simp [set, Function.update_apply]

def Failed (s : DeploySystem ι) (i : ι) : Prop :=
  ∃ status, (s.locals i).status = some status ∧ status ≠ 200

structure Programs (lib : JsonLibrary) (req : ι → DeployRequest) (s : DeploySystem ι) : Prop where
  parsed : ∀ i doc a, (s.locals i).program = some (doc, a) →
    lib.parse (req i).body = .ok doc ∧ a < s.server.runtime.objects.length
  apart : ∀ i j doc doc' a, (s.locals i).program = some (doc, a) →
    (s.locals j).program = some (doc', a) → i = j

/-- The commits: the archive holds one snapshot of each, of the document of
its request. -/
def Commits (lib : JsonLibrary) (s : DeploySystem ι) (db : Database) : Prop :=
  ∀ i commit, (s.locals i).commit = some commit → ∃ doc a text,
    (s.locals i).program = some (doc, a) ∧ lib.dump doc = .ok text ∧
    (⟨commit.row.sha256, text⟩ : SnapshotRow) ∈ db.snapshots ∧
    ∀ row ∈ db.snapshots, row.commitSha256 = commit.row.sha256 → row.payload = text

section Step

variable {lib : JsonLibrary} {req : ι → DeployRequest} {s s' : DeploySystem ι} {e : Event ι}

theorem StepCase.unanswered (h : StepCase lib req s e s') : (s.locals e.request).status = none := by
  cases h with
  | swapped fresh => simp [Event.request, fresh]
  | committed here => simp [Event.request, here]
  | recorded here => simp [Event.request, here]
  | failed unanswered => exact unanswered

theorem StepCase.locals_ne (h : StepCase lib req s e s') {j : ι} (hj : j ≠ e.request) :
    s'.locals j = s.locals j := by
  cases h <;> exact (locals_set ..).trans (if_neg hj)

theorem StepCase.program (h : StepCase lib req s e s') {j : ι} {p : Json × Nat}
    (hp : (s.locals j).program = some p) : (s'.locals j).program = some p := by
  by_cases hj : j = e.request
  · subst hj
    cases h with
    | swapped fresh => simp [Event.request, fresh] at hp
    | committed here => simpa [Event.request, locals_set, here] using hp
    | recorded here => simpa [Event.request, locals_set, here] using hp
    | failed => simpa [locals_set] using hp
  · rw [h.locals_ne hj]
    exact hp

theorem StepCase.commit (h : StepCase lib req s e s') {j : ι} {c : CommitInfo}
    (hc : (s.locals j).commit = some c) : (s'.locals j).commit = some c := by
  by_cases hj : j = e.request
  · subst hj
    cases h with
    | swapped fresh => simp [Event.request, fresh] at hc
    | committed here => simp [Event.request, here] at hc
    | recorded here => simpa [Event.request, locals_set, here] using hc
    | failed => simpa [locals_set] using hc
  · rw [h.locals_ne hj]
    exact hc

theorem StepCase.stays_failed (h : StepCase lib req s e s') {j : ι} (hf : s.Failed j) :
    s'.Failed j := by
  obtain ⟨status, hstatus, hbad⟩ := hf
  have hj : j ≠ e.request := by
    rintro rfl
    simp [h.unanswered] at hstatus
  exact ⟨status, by rw [h.locals_ne hj, hstatus], hbad⟩

omit [DecidableEq ι] in
theorem Programs.congr (hp : Programs lib req s)
    (hl : ∀ j, (s'.locals j).program = (s.locals j).program)
    (hrt : s'.server.runtime = s.server.runtime) : Programs lib req s' := by
  refine ⟨fun j d a hj => ?_, fun j k d d' a hj hk => ?_⟩
  · rw [hrt]
    exact hp.parsed j d a (by rw [← hl, hj])
  · exact hp.apart j k d d' a (by rw [← hl, hj]) (by rw [← hl, hk])

theorem Programs.step (hp : Programs lib req s) (h : StepCase lib req s e s') :
    Programs lib req s' := by
  cases h with
  | @swapped i doc server fresh parsed current length archive =>
    refine ⟨fun j d a hj => ?_, fun j k d d' a hj hk => ?_⟩
    · rw [locals_set] at hj
      split at hj
      · next hji =>
        subst hji
        cases hj
        exact ⟨parsed, by simp [set, length]⟩
      · obtain ⟨hparse, hlt⟩ := hp.parsed j d a hj
        exact ⟨hparse, by simp only [set, length]; omega⟩
    · rw [locals_set] at hj hk
      split at hj <;> split at hk
      · next hji hki => rw [hji, hki]
      · cases hj
        exact absurd (hp.parsed k d' _ hk).2 (Nat.lt_irrefl _)
      · cases hk
        exact absurd (hp.parsed j d _ hj).2 (Nat.lt_irrefl _)
      · exact hp.apart j k d d' a hj hk
  | committed here =>
    refine hp.congr (fun j => ?_) rfl
    rw [locals_set]
    split
    · next hj => rw [hj, here]
    · rfl
  | recorded here _ _ runtime =>
    refine hp.congr (fun j => ?_) runtime
    rw [locals_set]
    split
    · next hj => rw [hj, here]
    · rfl
  | failed _ _ runtime =>
    refine hp.congr (fun j => ?_) runtime
    rw [locals_set]
    split
    · next hj => rw [hj]
    · rfl

theorem Commits.congr {db db' : Database} (hc : Commits lib s db)
    (hl : ∀ j, (s'.locals j).commit = (s.locals j).commit) (hstep : StepCase lib req s e s')
    (hsnap : db'.snapshots = db.snapshots) : Commits lib s' db' := by
  intro j commit hj
  obtain ⟨doc, a, text, hp, htext, hmem, honly⟩ := hc j commit (by rw [← hl, hj])
  exact ⟨doc, a, text, hstep.program hp, htext, hsnap ▸ hmem, hsnap ▸ honly⟩

theorem Commits.step {db : Database} (hdb : s.server.archive = some db) (hc : Commits lib s db)
    (h : StepCase lib req s e s') :
    ∃ db', s'.server.archive = some db' ∧ Commits lib s' db' := by
  have hstep := h
  cases h with
  | swapped fresh _ _ _ archive =>
    refine ⟨db, archive.trans hdb, hc.congr (fun j => ?_) hstep rfl⟩
    rw [locals_set]
    split
    · next hj => rw [hj, fresh]
    · rfl
  | @committed i env doc a db₀ db' text commit here archive dumped fresh snapshots =>
    obtain rfl : db₀ = db := Option.some.inj (archive.symm.trans hdb)
    refine ⟨db', rfl, fun j c hj => ?_⟩
    rw [locals_set] at hj
    split at hj
    · next hji =>
      subst hji
      cases hj
      refine ⟨doc, a, text, hstep.program (by rw [here]), dumped, by simp [snapshots], ?_⟩
      intro row hrow hkey
      rw [snapshots] at hrow
      rcases List.mem_append.mp hrow with hold | hnew
      · exact absurd hkey (fresh row hold)
      · rw [List.mem_singleton.mp hnew]
    · obtain ⟨d, b, t, hp, ht, hmem, honly⟩ := hc j c hj
      refine ⟨d, b, t, hstep.program hp, ht, by simp [snapshots, hmem], fun row hrow hkey => ?_⟩
      rw [snapshots] at hrow
      rcases List.mem_append.mp hrow with hold | hnew
      · exact honly row hold hkey
      · -- the new id differs from the id of every snapshot that was there
        rw [List.mem_singleton.mp hnew] at hkey
        exact absurd hkey.symm (fresh _ hmem)
  | recorded here archive _ _ archive' =>
    obtain rfl := Option.some.inj (archive.symm.trans hdb)
    refine ⟨_, archive', hc.congr (fun j => ?_) hstep rfl⟩
    rw [locals_set]
    split
    · next hj => rw [hj, here]
    · rfl
  | failed _ _ _ archive =>
    obtain ⟨db', hdb', hsnap, _⟩ := archive db hdb
    refine ⟨db', hdb', hc.congr (fun j => ?_) hstep hsnap⟩
    rw [locals_set]
    split
    · next hj => rw [hj]
    · rfl

/-- The last request that swapped, unless it failed, has its program current. -/
def LastSwapped (events : List (Event ι)) (s : DeploySystem ι) : Prop :=
  match lastSwap events with
  | none => ∀ i, (s.locals i).program = none
  | some i => s.Failed i ∨ ∃ doc a, (s.locals i).program = some (doc, a) ∧
    s.server.runtime.current = some a

theorem StepCase.runtime_of_ne_swap (h : StepCase lib req s e s') (he : ∀ i, e ≠ .swap i) :
    s'.server.runtime = s.server.runtime := by
  cases h with
  | swapped => exact absurd rfl (he _)
  | committed => rfl
  | recorded _ _ _ runtime => exact runtime
  | failed _ _ runtime => exact runtime

theorem LastSwapped.step {events : List (Event ι)} (hl : LastSwapped events s)
    (h : StepCase lib req s e s') : LastSwapped (events ++ [e]) s' := by
  by_cases he : ∀ i, e ≠ .swap i
  · have hlast : lastSwap (events ++ [e]) = lastSwap events := by
      rw [lastSwap_concat]
      cases e with
      | swap i => exact absurd rfl (he i)
      | _ => rfl
    rw [LastSwapped, hlast]
    rw [LastSwapped] at hl
    cases hs : lastSwap events with
    | none =>
      simp only [hs] at hl ⊢
      intro i
      by_cases hi : i = e.request
      · subst hi
        cases h with
        | swapped => exact absurd rfl (he _)
        | committed here =>
          have hp := congrArg DeployLocals.program here
          rw [hl] at hp
          cases hp
        | recorded here =>
          have hp := congrArg DeployLocals.program here
          rw [hl] at hp
          cases hp
        | failed => simpa [locals_set] using hl e.request
      · rw [h.locals_ne hi]
        exact hl i
    | some i =>
      simp only [hs] at hl ⊢
      rcases hl with hf | ⟨doc, a, hp, hc⟩
      · exact .inl (h.stays_failed hf)
      · exact .inr ⟨doc, a, h.program hp, by rw [h.runtime_of_ne_swap he, hc]⟩
  · push Not at he
    obtain ⟨i, rfl⟩ := he
    simp only [LastSwapped, lastSwap_concat]
    cases h with
    | swapped _ _ current => exact .inr ⟨_, _, by simp [locals_set]; rfl, current⟩
    | @failed _ status _ _ bad =>
      exact .inl ⟨status, by simp [Event.request, locals_set], bad⟩

/-- The last request that recorded, unless it failed, is named by the last
deployments row. -/
def LastRecorded (events : List (Event ι)) (s : DeploySystem ι) : Prop :=
  match lastRecord events with
  | none => ∀ i, (s.locals i).status ≠ some 200
  | some j => s.Failed j ∨ ∃ db commit row, s.server.archive = some db ∧
    (s.locals j).commit = some commit ∧ db.deployments.getLast? = some row ∧
    row.commitSha256 = commit.row.sha256

theorem StepCase.deployments_of_ne_record (h : StepCase lib req s e s')
    (he : ∀ i env, e ≠ .record i env) {db : Database} (hdb : s.server.archive = some db) :
    ∃ db', s'.server.archive = some db' ∧ db'.deployments = db.deployments := by
  cases h with
  | swapped _ _ _ _ archive => exact ⟨db, archive.trans hdb, rfl⟩
  | committed _ archive _ _ _ deployments =>
    obtain rfl := Option.some.inj (archive.symm.trans hdb)
    exact ⟨_, rfl, deployments⟩
  | recorded => exact absurd rfl (he _ _)
  | failed _ _ _ archive =>
    obtain ⟨db', hdb', _, hdep⟩ := archive db hdb
    exact ⟨db', hdb', hdep⟩

theorem LastRecorded.step {events : List (Event ι)} (hl : LastRecorded events s)
    (h : StepCase lib req s e s') : LastRecorded (events ++ [e]) s' := by
  by_cases he : ∀ i env, e ≠ .record i env
  · have hlast : lastRecord (events ++ [e]) = lastRecord events := by
      rw [lastRecord_concat]
      cases e with
      | record i env => exact absurd rfl (he i env)
      | _ => rfl
    rw [LastRecorded, hlast]
    rw [LastRecorded] at hl
    cases hs : lastRecord events with
    | none =>
      simp only [hs] at hl ⊢
      intro i
      by_cases hi : i = e.request
      · subst hi
        cases h with
        | swapped => simp [Event.request, locals_set]
        | committed => simp [Event.request, locals_set]
        | recorded => exact absurd rfl (he _ _)
        | failed _ bad => simpa [locals_set] using bad
      · rw [h.locals_ne hi]
        exact hl i
    | some j =>
      simp only [hs] at hl ⊢
      rcases hl with hf | ⟨db, commit, row, hdb, hc, hrow, hname⟩
      · exact .inl (h.stays_failed hf)
      · obtain ⟨db', hdb', hdep⟩ := h.deployments_of_ne_record he hdb
        exact .inr ⟨db', commit, row, hdb', h.commit hc, by rw [hdep, hrow], hname⟩
  · push Not at he
    obtain ⟨i, env, rfl⟩ := he
    simp only [LastRecorded, lastRecord_concat]
    cases h with
    | @recorded _ _ doc a status db row commit server here archive names runtime archive' =>
      exact .inr ⟨_, commit, row, archive', by simp [locals_set], by simp, names⟩
    | @failed _ status _ _ bad => exact .inl ⟨status, by simp [Event.request, locals_set], bad⟩

def Complete (s : DeploySystem ι) : Prop :=
  ∀ i, (s.locals i).status = some 200 →
    (∃ p, (s.locals i).program = some p) ∧ ∃ commit, (s.locals i).commit = some commit

theorem Complete.step (hc : Complete s) (h : StepCase lib req s e s') : Complete s' := by
  intro i hi
  by_cases hie : i = e.request
  · subst hie
    cases h with
    | swapped => simp [Event.request, locals_set] at hi
    | committed => simp [Event.request, locals_set] at hi
    | recorded => simp [Event.request, locals_set]
    | failed _ bad => exact absurd (by simpa [locals_set] using hi) bad
  · rw [h.locals_ne hie] at hi ⊢
    exact hc i hi

end Step

def Initial (s : DeploySystem ι) : Prop :=
  (∀ i, s.locals i = {}) ∧ ∃ db, s.server.archive = some db

theorem run_keeps {lib : JsonLibrary} {req : ι → DeployRequest} {s₀ s : DeploySystem ι}
    {events : List (Event ι)} (h₀ : s₀.Initial) (h : run lib req s₀ events = some s) :
    Programs lib req s ∧ Complete s ∧ LastSwapped events s ∧ LastRecorded events s ∧
      ∃ db, s.server.archive = some db ∧ Commits lib s db := by
  obtain ⟨hidle, db₀, hdb₀⟩ := h₀
  refine Machine.run_induction (fun events s => Programs lib req s ∧ Complete s ∧
    LastSwapped events s ∧ LastRecorded events s ∧
      ∃ db, s.server.archive = some db ∧ Commits lib s db) ?_ ?_ h
  · refine ⟨⟨?_, ?_⟩, ?_, fun i => by simp [hidle], fun i => by simp [hidle], db₀, hdb₀, ?_⟩
    · intro i doc a hp
      simp [hidle] at hp
    · intro i j doc doc' a hp
      simp [hidle] at hp
    · intro i hi
      simp [hidle] at hi
    · intro i commit hc
      simp [hidle] at hc
  · rintro events s e s' _ ⟨hprog, hcomplete, hswap, hrecord, db, hdb, hcommits⟩ hstep
    have hcase := step_case hstep
    exact ⟨hprog.step hcase, hcomplete.step hcase, hswap.step hcase, hrecord.step hcase,
      hcommits.step hdb hcase⟩

omit [DecidableEq ι] in
theorem not_failed {s : DeploySystem ι} (hdone : ∀ i, (s.locals i).status = some 200) (i : ι) :
    ¬ s.Failed i := by
  rintro ⟨status, hstatus, hbad⟩
  rw [hdone i] at hstatus
  exact hbad (Option.some.inj hstatus).symm

theorem currentDocument_iff {lib : JsonLibrary} {req : ι → DeployRequest} {s₀ s : DeploySystem ι}
    {events : List (Event ι)} (h₀ : s₀.Initial) (h : run lib req s₀ events = some s)
    (hdone : ∀ i, (s.locals i).status = some 200) (doc : Json) :
    s.CurrentDocument doc ↔ ∃ i, lastSwap events = some i ∧ lib.parse (req i).body = .ok doc := by
  obtain ⟨hprog, _, hswap, _⟩ := run_keeps h₀ h
  rw [LastSwapped] at hswap
  constructor
  · rintro ⟨k, a, hk, hcur⟩
    cases hl : lastSwap events with
    | none =>
      simp only [hl] at hswap
      rw [hswap k] at hk
      cases hk
    | some i =>
      simp only [hl] at hswap
      rcases hswap with hf | ⟨d, b, hp, hcur'⟩
      · exact absurd hf (not_failed hdone i)
      · obtain rfl : a = b := Option.some.inj (hcur.symm.trans hcur')
        obtain rfl := hprog.apart k i doc d a hk hp
        exact ⟨k, rfl, (hprog.parsed k doc a hk).1⟩
  · rintro ⟨i, hl, hparse⟩
    simp only [hl] at hswap
    rcases hswap with hf | ⟨d, b, hp, hcur⟩
    · exact absurd hf (not_failed hdone i)
    · have hd := (hprog.parsed i d b hp).1
      rw [hparse] at hd
      obtain rfl := Except.ok.inj hd
      exact ⟨i, b, hp, hcur⟩

theorem recordedSnapshot_iff {lib : JsonLibrary} {req : ι → DeployRequest} {s₀ s : DeploySystem ι}
    {events : List (Event ι)} (h₀ : s₀.Initial) (h : run lib req s₀ events = some s)
    (hdone : ∀ i, (s.locals i).status = some 200) (some_request : ι) (text : String) :
    s.RecordedSnapshot text ↔ ∃ j doc, lastRecord events = some j ∧
      lib.parse (req j).body = .ok doc ∧ lib.dump doc = .ok text := by
  obtain ⟨hprog, _, _, hrecord, db, hdb, hcommits⟩ := run_keeps h₀ h
  rw [LastRecorded] at hrecord
  cases hl : lastRecord events with
  | none =>
    simp only [hl] at hrecord
    exact absurd (hdone some_request) (hrecord some_request)
  | some j =>
    simp only [hl] at hrecord
    rcases hrecord with hf | ⟨db', commit, row, hdb', hc, hrow, hname⟩
    · exact absurd hf (not_failed hdone j)
    obtain rfl : db = db' := Option.some.inj (hdb.symm.trans hdb')
    obtain ⟨doc, a, t, hp, ht, hmem, honly⟩ := hcommits j commit hc
    have hparse := (hprog.parsed j doc a hp).1
    constructor
    · rintro ⟨db', row', snapshot, hdb', hrow', hsnap, hkey, rfl⟩
      obtain rfl : db = db' := Option.some.inj (hdb.symm.trans hdb')
      obtain rfl : row = row' := Option.some.inj (hrow.symm.trans hrow')
      rw [honly snapshot hsnap (hkey.trans hname)]
      exact ⟨j, doc, rfl, hparse, ht⟩
    · rintro ⟨j', doc', hj, hparse', ht'⟩
      obtain rfl := Option.some.inj hj
      rw [hparse] at hparse'
      obtain rfl := Except.ok.inj hparse'
      rw [ht] at ht'
      obtain rfl := Except.ok.inj ht'
      exact ⟨db, row, _, hdb, hrow, hmem, hname.symm, rfl⟩

/-- When every request has been answered with 200, the last deployments row
names the running program exactly when the request that swapped last and the
one that recorded last have documents with the same text. -/
theorem agrees_iff_sameText {lib : JsonLibrary} {req : ι → DeployRequest} {s₀ s : DeploySystem ι}
    {events : List (Event ι)} (h₀ : s₀.Initial) (h : run lib req s₀ events = some s)
    (hdone : ∀ i, (s.locals i).status = some 200) :
    Agrees lib s ↔ SameText lib req events := by
  have hcurrent := currentDocument_iff h₀ h hdone
  have hrecorded := recordedSnapshot_iff h₀ h hdone
  constructor
  · rintro ⟨doc, text, hdoc, htext, hsnap⟩
    obtain ⟨i, hi, hparse⟩ := (hcurrent doc).mp hdoc
    obtain ⟨j, doc', hj, hparse', htext'⟩ := (hrecorded i text).mp hsnap
    exact ⟨i, j, doc, doc', text, hi, hj, hparse, hparse', htext, htext'⟩
  · rintro ⟨i, j, doc, doc', text, hi, hj, hparse, hparse', htext, htext'⟩
    exact ⟨doc, text, (hcurrent doc).mpr ⟨i, hi, hparse⟩, htext,
      (hrecorded i text).mpr ⟨j, doc', hj, hparse', htext'⟩⟩

/-! ### Two deploys that interleave -/

theorem step_swap_eq {lib : JsonLibrary} {req : ι → DeployRequest} {s : DeploySystem ι} {i : ι}
    {doc : Json} {p : LogicProgram} (h : s.locals i = {})
    (hparse : lib.parse (req i).body = .ok doc)
    (hp : LogicProgram.fromJson doc s.server.runtime.period = .ok p) :
    step lib req s (.swap i) = some (s.set i { s.server with
      runtime := (s.server.runtime.allocate p).reload (some s.server.runtime.objects.length)
        (s.server.runtime.lt_length_allocate p) }
      { program := some (doc, s.server.runtime.objects.length) }) := by
  have hswap := deploySwap_eq hparse s.server hp
  simp only [step, h, swapStep, hswap]

def quietEnv (now : Int) : DeployEnv := ⟨⟨.runs, .runs, .runs⟩, .runs, now, now⟩

/-- Undisturbed by SQLite, a request whose commit id is new commits, records
and is answered with 200. -/
theorem run_commit_record {lib : JsonLibrary} (htotal : ∀ j, ∃ text, lib.dump j = .ok text)
    (req : ι → DeployRequest) {s : DeploySystem ι} {i : ι} {doc : Json} {a : Nat} {db : Database}
    {text : String} (now : Int) (commit : CommitInfo)
    (hl : s.locals i = { program := some (doc, a) }) (hdb : s.server.archive = some db)
    (htext : lib.dump doc = .ok text)
    (hcommit : commit = ⟨sha256Hex (hashInput text (deployAuthor (req i)) (req i).message
      (currentTimestamp now)), db.commits.getLast?.map CommitInfo.sha256, deployAuthor (req i),
      (req i).message, currentTimestamp now⟩)
    (hcommits : ∀ row ∈ db.commits, row.sha256 ≠ commit.row.sha256)
    (hsnapshots : ∀ row ∈ db.snapshots, row.commitSha256 ≠ commit.row.sha256) :
    ∃ s', run lib req s [.commit i (quietEnv now), .record i (quietEnv now)] = some s' ∧
      (s'.locals i).status = some 200 ∧ (∀ j, j ≠ i → s'.locals j = s.locals j) ∧
      s'.server.archive =
        some ((db.withCommit commit text).withDeployment commit.sha256 now) := by
  have hc : deployCommit lib (req i) (quietEnv now) doc db = .ok commit (db.withCommit commit text) :=
    commitConfig_eq htext now (deployAuthor (req i)) (req i).message hcommit hcommits hsnapshots
  obtain ⟨s₁, hs₁⟩ : ∃ s₁, s₁ = s.set i { s.server with archive := some (db.withCommit commit text) }
    { program := some (doc, a), commit := some commit } := ⟨_, rfl⟩
  have h₁ : step lib req s (.commit i (quietEnv now)) = some s₁ := by
    simp only [step, hl, hdb, commitStep, onArchive, hc, hs₁]
  have hl₁ : s₁.locals i = { program := some (doc, a), commit := some commit } := by
    rw [hs₁, locals_set, if_pos rfl]
  have hdb₁ : s₁.server.archive = some (db.withCommit commit text) := by
    rw [hs₁]
    rfl
  obtain ⟨s₂, hs₂⟩ : ∃ s₂ : WebServer, s₂ = { s₁.server with
    archive := some ((db.withCommit commit text).withDeployment commit.sha256 now) } := ⟨_, rfl⟩
  have hrecord : onArchive (db.withCommit commit text) (deployRecord (quietEnv now) commit)
      s₁.server = .ok () s₂ := by
    rw [hs₂]
    rfl
  obtain ⟨res, server, hok, hstatus, _, har⟩ :=
    (deployArchived_answers lib (req i) a commit).of_total htotal s₂
  have h₂ : step lib req s₁ (.record i (quietEnv now)) = some (s₁.set i server
      { program := some (doc, a), commit := some commit, status := some res.status }) := by
    simp only [step, hl₁, hdb₁, recordStep, hrecord, hok, answer]
  refine ⟨_, Machine.run_cons.mpr ⟨s₁, h₁, Machine.run_singleton.mpr h₂⟩, ?_, fun j hj => ?_, ?_⟩
  · rw [locals_set, if_pos rfl, hstatus]
  · rw [locals_set, if_neg hj, hs₁, locals_set, if_neg hj]
  · rw [show (s₁.set i server _).server.archive = server.archive from rfl, har, hs₂]

def twoDocuments (i : Bool) : Json :=
  .object [("rules", .array []), ("v", .numberUnsigned (if i then 1 else 2))]

def twoLibrary : JsonLibrary := .plain [twoDocuments true, twoDocuments false]

def twoRequests (i : Bool) : DeployRequest := ⟨plainText (twoDocuments i), "", ""⟩

def twoInitial : DeploySystem Bool := ⟨⟨.empty 100, some {}, none⟩, fun _ => {}⟩

theorem twoInitial_initial : twoInitial.Initial := ⟨fun _ => rfl, {}, rfl⟩

def lateRecord : List (Event Bool) :=
  [.swap true, .swap false] ++ ([.commit false (quietEnv 1), .record false (quietEnv 1)] ++
    [.commit true (quietEnv 2), .record true (quietEnv 2)])

theorem twoParse (i : Bool) : twoLibrary.parse (twoRequests i).body = .ok (twoDocuments i) := by
  cases i with
  | true => rfl
  | false => rfl

theorem twoDump (i : Bool) : twoLibrary.dump (twoDocuments i) = .ok (plainText (twoDocuments i)) := by
  refine JsonLibrary.plain_dump _ ?_
  cases i with
  | true => decide +kernel
  | false => decide +kernel

def twoCommit (i : Bool) (parent : Option String) (now : Int) : CommitInfo :=
  ⟨sha256Hex (hashInput (plainText (twoDocuments i)) "anonymous" "" (currentTimestamp now)),
    parent, "anonymous", "", currentTimestamp now⟩

theorem twoId_ne (parent parent' : Option String) :
    (twoCommit false parent 1).row.sha256 ≠ (twoCommit true parent' 2).row.sha256 := by
  have hne : cString (sha256Hex (hashInput (plainText (twoDocuments false)) "anonymous" ""
      (currentTimestamp 1))) ≠ cString (sha256Hex (hashInput (plainText (twoDocuments true))
      "anonymous" "" (currentTimestamp 2))) := by
    decide +kernel
  exact hne

theorem lateRecord_run : ∃ s, run twoLibrary twoRequests twoInitial lateRecord = some s ∧
    ∀ i, (s.locals i).status = some 200 := by
  have htotal : ∀ j, ∃ text, twoLibrary.dump j = .ok text := fun j => ⟨_, rfl⟩
  obtain ⟨s₁, h₁, hs₁⟩ : ∃ s₁, step twoLibrary twoRequests twoInitial (.swap true) = some s₁ ∧
      s₁ = twoInitial.set true _ _ :=
    ⟨_, step_swap_eq (p := ⟨[]⟩) rfl (twoParse true) rfl, rfl⟩
  have hf₁ : s₁.locals false = {} := by rw [hs₁]; rfl
  obtain ⟨s₂, h₂, hs₂⟩ : ∃ s₂, step twoLibrary twoRequests s₁ (.swap false) = some s₂ ∧
      s₂ = s₁.set false _ _ :=
    ⟨_, step_swap_eq (p := ⟨[]⟩) hf₁ (twoParse false) rfl, rfl⟩
  have hdb₂ : s₂.server.archive = some {} := by rw [hs₂, hs₁]; rfl
  have hf₂ : s₂.locals false = { program := some (twoDocuments false, 1) } := by
    rw [hs₂, hs₁]; rfl
  have ht₂ : s₂.locals true = { program := some (twoDocuments true, 0) } := by
    rw [hs₂, hs₁]; rfl
  obtain ⟨s₃, h₃, hdone₃, hother₃, hdb₃⟩ := run_commit_record htotal twoRequests 1
    (twoCommit false none 1) hf₂ hdb₂ (twoDump false) rfl
    (by simp) (by simp)
  obtain ⟨s₄, h₄, hdone₄, hother₄, _⟩ := run_commit_record htotal twoRequests 2
    (twoCommit true _ 2) ((hother₃ true (by decide)).trans ht₂) hdb₃ (twoDump true) rfl
    (by simpa [Database.withCommit, Database.withDeployment] using twoId_ne _ _)
    (by simpa [Database.withCommit, Database.withDeployment] using twoId_ne _ _)
  refine ⟨s₄, ?_, fun i => ?_⟩
  · exact Machine.run_append.mpr ⟨s₂, Machine.run_cons.mpr ⟨s₁, h₁, Machine.run_singleton.mpr h₂⟩,
      Machine.run_append.mpr ⟨s₃, h₃, h₄⟩⟩
  · cases i with
    | true => exact hdone₄
    | false => rw [hother₄ false (by decide), hdone₃]

/-- Two requests run concurrently, both are answered with 200, and the last
deployments row names the document that is no longer running. -/
theorem lateRecord_disagrees : ∃ s, twoInitial.Initial ∧
    run twoLibrary twoRequests twoInitial lateRecord = some s ∧
    (∀ i, (s.locals i).status = some 200) ∧ ¬ Agrees twoLibrary s := by
  obtain ⟨s, hrun, hdone⟩ := lateRecord_run
  refine ⟨s, twoInitial_initial, hrun, hdone, ?_⟩
  rintro ⟨doc, text, hdoc, htext, hsnap⟩
  obtain ⟨i, hi, hparse⟩ := (currentDocument_iff twoInitial_initial hrun hdone doc).mp hdoc
  obtain ⟨j, doc', hj, hparse', htext'⟩ :=
    (recordedSnapshot_iff twoInitial_initial hrun hdone true text).mp hsnap
  obtain rfl : false = i := Option.some.inj hi
  obtain rfl : true = j := Option.some.inj hj
  rw [twoParse] at hparse hparse'
  obtain rfl := Except.ok.inj hparse
  obtain rfl := Except.ok.inj hparse'
  rw [twoDump] at htext htext'
  have heq : plainText (twoDocuments true) = plainText (twoDocuments false) :=
    (Except.ok.inj htext').trans (Except.ok.inj htext).symm
  revert heq
  decide

theorem agrees_iff_sameText_lateRecord : ∃ s, run twoLibrary twoRequests twoInitial lateRecord =
    some s ∧ (Agrees twoLibrary s ↔ SameText twoLibrary twoRequests lateRecord) := by
  obtain ⟨s, hrun, hdone⟩ := lateRecord_run
  exact ⟨s, hrun, agrees_iff_sameText twoInitial_initial hrun hdone⟩

end DeploySystem

end Openaslc
