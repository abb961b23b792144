import Openaslc.DeployHandler

/-! What the status of a deploy response tells about the runtime and the
archive, for every way the handler can go. -/

namespace Openaslc

def Deployed (lib : JsonLibrary) (req : DeployRequest) (s s' : WebServer) (doc : Json) : Prop :=
  lib.parse req.body = .ok doc ∧ ∃ prog, LogicProgram.fromJson doc s.runtime.period = .ok prog ∧
    s'.runtime.getCurrent = some prog ∧ prog.TimersZero

theorem Deployed.congr {lib : JsonLibrary} {req : DeployRequest} {s s₁ s₂ : WebServer} {doc : Json}
    (h : Deployed lib req s s₁ doc) (he : s₂.runtime = s₁.runtime) : Deployed lib req s s₂ doc := by
  obtain ⟨hparse, prog, hprog, hcur, hzero⟩ := h
  exact ⟨hparse, prog, hprog, by rw [he, hcur], hzero⟩

theorem deploySwap_ok {lib : JsonLibrary} {req : DeployRequest} {s s' : WebServer} {doc : Json}
    {program : Nat} (h : deploySwap lib req s = .ok (doc, program) s') :
    lib.parse req.body = .ok doc ∧ ∃ runtime,
      s.runtime.reloadFromJson doc = .ok (runtime, program) ∧ s' = { s with runtime } := by
  simp only [deploySwap] at h
  split at h
  · cases h
  · next d hparse =>
    split at h
    · cases h
    · next runtime a hreload =>
      cases h
      exact ⟨hparse, runtime, hreload, rfl⟩

theorem deploySwap_eq {lib : JsonLibrary} {req : DeployRequest} {doc : Json} {p : LogicProgram}
    (hparse : lib.parse req.body = .ok doc) (s : WebServer)
    (hp : LogicProgram.fromJson doc s.runtime.period = .ok p) :
    deploySwap lib req s = .ok (doc, s.runtime.objects.length) { s with
      runtime := (s.runtime.allocate p).reload (some s.runtime.objects.length)
        (s.runtime.lt_length_allocate p) } := by
  simp only [deploySwap, hparse, LogicRuntime.reloadFromJson, hp]
  rfl

theorem deployed_of_swap {lib : JsonLibrary} {req : DeployRequest} {s s' : WebServer} {doc : Json}
    {program : Nat} (h : deploySwap lib req s = .ok (doc, program) s') :
    Deployed lib req s s' doc ∧ s'.archive = s.archive := by
  obtain ⟨hparse, runtime, hreload, rfl⟩ := deploySwap_ok h
  obtain ⟨prog, hprog, _, rfl⟩ := LogicRuntime.reloadFromJson_ok hreload
  obtain ⟨rules, _, hspecs⟩ := specs_of_fromJson hprog
  have hzero : prog.TimersZero := hspecs ▸ LogicProgram.timersZero_ofSpecs rules _
  exact ⟨⟨hparse, prog, hprog, s.runtime.getCurrent_reload_allocate prog, hzero⟩, rfl⟩

theorem reloadFromJson_error {rt : LogicRuntime} {doc : Json} {e : Exception}
    (h : rt.reloadFromJson doc = .error e) : ∃ what, e = .logicParseError what := by
  rcases fromJson_decides doc rt.period with ⟨rules, _, hok⟩ | ⟨_, what, herr⟩
  · rw [LogicRuntime.reloadFromJson, hok] at h
    cases h
  · rw [LogicRuntime.reloadFromJson, herr] at h
    cases h
    exact ⟨what, rfl⟩

/-- Before the swap nothing has changed, and no archive error is possible. -/
theorem deploySwap_error {lib : JsonLibrary} {req : DeployRequest} {s s' : WebServer}
    {e : Exception} (h : deploySwap lib req s = .error e s') :
    s' = s ∧ ∀ what, e ≠ .configArchiveError what := by
  simp only [deploySwap] at h
  split at h
  · next failure _ =>
    cases h
    exact ⟨rfl, fun what he => by cases failure <;> cases he⟩
  · split at h
    · next e' hreload =>
      cases h
      obtain ⟨what, rfl⟩ := reloadFromJson_error hreload
      exact ⟨rfl, fun _ he => by cases he⟩
    · cases h

theorem onArchive_ok {α : Type} {db : Database} {x : ArchiveM α} {a : α} {s s' : WebServer}
    (h : onArchive db x s = .ok a s') :
    ∃ db', x db = .ok a db' ∧ s' = { s with archive := some db' } := by
  simp only [onArchive] at h
  split at h
  · next hx =>
    cases h
    exact ⟨_, hx, rfl⟩
  · cases h

theorem onArchive_error {α : Type} {db : Database} {x : ArchiveM α} {e : Exception}
    {s s' : WebServer} (h : onArchive db x s = .error e s') :
    ∃ db', x db = .error e db' ∧ s' = { s with archive := some db' } := by
  simp only [onArchive] at h
  split at h
  · cases h
  · next hx =>
    cases h
    exact ⟨_, hx, rfl⟩

def SameState (s s' : WebServer) : Prop := s'.runtime = s.runtime ∧ s'.archive = s.archive

/-- A computation that at most logs, and then answers with this status or
throws because a text is not UTF-8. -/
def Answers (lib : JsonLibrary) (status : Nat) (x : DeployM Response) : Prop :=
  ∀ s, (∃ res s', x s = .ok res s' ∧ res.status = status ∧ SameState s s') ∨
    ∃ what s', x s = .error (.jsonTypeError what) s' ∧ SameState s s' ∧
      ∃ j, lib.dump j = .error what

theorem Answers.ok {lib : JsonLibrary} {status : Nat} {x : DeployM Response}
    (hx : Answers lib status x) {res : Response} {s s' : WebServer} (h : x s = .ok res s') :
    res.status = status ∧ SameState s s' := by
  rcases hx s with ⟨res', s₁, hs, hstatus⟩ | ⟨what, s₁, hs, _⟩
  · rw [hs] at h
    cases h
    exact hstatus
  · rw [hs] at h
    cases h

theorem Answers.error {lib : JsonLibrary} {status : Nat} {x : DeployM Response}
    (hx : Answers lib status x) {e : Exception} {s s' : WebServer} (h : x s = .error e s') :
    (∃ what, e = .jsonTypeError what) ∧ SameState s s' := by
  rcases hx s with ⟨res', s₁, hs, _⟩ | ⟨what, s₁, hs, hsame, _⟩
  · rw [hs] at h
    cases h
  · rw [hs] at h
    cases h
    exact ⟨⟨what, rfl⟩, hsame⟩

theorem Answers.of_total {lib : JsonLibrary} {status : Nat} {x : DeployM Response}
    (hx : Answers lib status x) (htotal : ∀ j, ∃ text, lib.dump j = .ok text) (s : WebServer) :
    ∃ res s', x s = .ok res s' ∧ res.status = status ∧ SameState s s' := by
  rcases hx s with hok | ⟨what, _, _, _, j, herr⟩
  · exact hok
  · obtain ⟨text, htext⟩ := htotal j
    rw [htext] at herr
    cases herr

theorem dumpJson_cases (lib : JsonLibrary) (j : Json) :
    (∃ text, ∀ s, dumpJson lib j s = .ok text s) ∨
      ∃ what, (∀ s, dumpJson lib j s = .error (.jsonTypeError what) s) ∧
        lib.dump j = .error what := by
  cases h : lib.dump j with
  | ok text => exact .inl ⟨text, fun s => by simp only [dumpJson, h]⟩
  | error what => exact .inr ⟨what, fun s => by simp only [dumpJson, h], rfl⟩

theorem deployArchived_answers (lib : JsonLibrary) (req : DeployRequest) (program : Nat)
    (commit : CommitInfo) : Answers lib 200 (deployArchived lib req program commit) := by
  intro s
  rw [deployArchived, StateExcept.get_bind]
  rcases dumpJson_cases lib (.object [("commit", commitToJson commit),
    ruleCountJson (s.runtime.object program).ruleCount]) with ⟨text, hdump⟩ | ⟨what, hdump, hj⟩
  · exact .inl ⟨_, _, StateExcept.bind_eq_ok.mpr ⟨(), _, rfl,
      StateExcept.bind_eq_ok.mpr ⟨text, _, hdump _, rfl⟩⟩, rfl, rfl, rfl⟩
  · exact .inr ⟨what, _, StateExcept.bind_eq_error.mpr (.inr ⟨(), _, rfl,
      StateExcept.bind_eq_error.mpr (.inl (hdump _))⟩), ⟨rfl, rfl⟩, _, hj⟩

theorem deployUnarchived_answers (lib : JsonLibrary) (program : Nat) :
    Answers lib 200 (deployUnarchived lib program) := by
  intro s
  rw [deployUnarchived, StateExcept.get_bind]
  rcases dumpJson_cases lib (.object [ruleCountJson (s.runtime.object program).ruleCount])
    with ⟨text, hdump⟩ | ⟨what, hdump, hj⟩
  · exact .inl ⟨_, _, StateExcept.bind_eq_ok.mpr ⟨text, s, hdump s, rfl⟩, rfl, rfl, rfl⟩
  · exact .inr ⟨what, s, StateExcept.bind_eq_error.mpr (.inl (hdump s)), ⟨rfl, rfl⟩, _, hj⟩

theorem errorResponse_answers (lib : JsonLibrary) (status : Nat) (error : String)
    (level : LogLevel) (message : String) :
    Answers lib status (errorResponse lib status error level message) := by
  intro s
  rcases dumpJson_cases lib (.object [("error", .string error)]) with ⟨text, hdump⟩ | ⟨what, hdump, hj⟩
  · exact .inl ⟨_, _, StateExcept.bind_eq_ok.mpr ⟨text, s, hdump s,
      StateExcept.bind_eq_ok.mpr ⟨(), _, rfl, rfl⟩⟩, rfl, rfl, rfl⟩
  · exact .inr ⟨what, s, StateExcept.bind_eq_error.mpr (.inl (hdump s)), ⟨rfl, rfl⟩, _, hj⟩

/-- One commit, the snapshot of the document, and one deployment of it. -/
def Archived (lib : JsonLibrary) (doc : Json) (db db' : Database) : Prop :=
  ∃ commit text deployedAt, lib.dump doc = .ok text ∧
    db' = { commits := db.commits ++ [commit]
            snapshots := db.snapshots ++ [⟨commit.sha256, text⟩]
            deployments := db.deployments ++ [⟨commit.sha256, deployedAt, "active"⟩] }

theorem deployArchive_ok {lib : JsonLibrary} {req : DeployRequest} {env : DeployEnv} {doc : Json}
    {commit : CommitInfo} {db db' : Database}
    (h : deployArchive lib req env doc db = .ok commit db') : Archived lib doc db db' := by
  obtain ⟨c, m, hcommit, h₁⟩ := StateExcept.bind_eq_ok.mp h
  obtain ⟨⟨⟩, m', hrecord, h₂⟩ := StateExcept.bind_eq_ok.mp h₁
  obtain ⟨text, htext, _, rfl⟩ := commitConfig_ok hcommit
  obtain rfl := recordDeployment_ok hrecord
  simp only [StateExcept.pure_eq, EStateM.Result.ok.injEq] at h₂
  obtain ⟨rfl, rfl⟩ := h₂
  exact ⟨c.row, text, _, htext, rfl⟩

theorem deployArchive_error {lib : JsonLibrary} {req : DeployRequest} {env : DeployEnv}
    {doc : Json} {e : Exception} {db db' : Database}
    (h : deployArchive lib req env doc db = .error e db') :
    db'.deployments = db.deployments ∧
      ((∃ what, e = .jsonTypeError what) ∨ ∃ what, e = .configArchiveError what) := by
  rcases StateExcept.bind_eq_error.mp h with hcommit | ⟨c, m, hcommit, h₁⟩
  · obtain ⟨⟨_, hdep⟩, he⟩ := commitConfig_error hcommit
    exact ⟨hdep, he⟩
  obtain ⟨text, _, _, rfl⟩ := commitConfig_ok hcommit
  rcases StateExcept.bind_eq_error.mp h₁ with hrecord | ⟨⟨⟩, m', _, h₂⟩
  · rw [deployRecord, recordDeployment] at hrecord
    obtain ⟨rfl, hwhat⟩ := insertStatement_error hrecord
    exact ⟨rfl, .inr hwhat⟩
  · simp [StateExcept.pure_eq] at h₂

/-! ### The `try` block -/

theorem deployBody_ok {lib : JsonLibrary} {req : DeployRequest} {env : DeployEnv} {res : Response}
    {s s' : WebServer} (h : deployBody lib req env s = .ok res s') :
    res.status = 200 ∧ ∃ doc, Deployed lib req s s' doc ∧
      (s.archive = none → s'.archive = none) ∧
      ∀ db, s.archive = some db → ∃ db', s'.archive = some db' ∧ Archived lib doc db db' := by
  obtain ⟨⟨doc, program⟩, m, hswap, h₁⟩ := StateExcept.bind_eq_ok.mp h
  obtain ⟨hdeployed, harchive⟩ := deployed_of_swap hswap
  simp only [StateExcept.get_bind, harchive] at h₁
  cases ha : s.archive with
  | none =>
    simp only [ha] at h₁
    obtain ⟨hstatus, hrt, har⟩ := (deployUnarchived_answers lib program).ok h₁
    exact ⟨hstatus, doc, hdeployed.congr hrt, fun _ => by rw [har, harchive, ha],
      fun db hdb => by cases hdb⟩
  | some db =>
    simp only [ha] at h₁
    obtain ⟨commit, m', hcommit, h₂⟩ := StateExcept.bind_eq_ok.mp h₁
    obtain ⟨db', hx, rfl⟩ := onArchive_ok hcommit
    obtain ⟨hstatus, hrt, har⟩ := (deployArchived_answers lib req program commit).ok h₂
    refine ⟨hstatus, doc, hdeployed.congr hrt, by simp, ?_⟩
    rintro db₀ ⟨⟩
    exact ⟨db', har, deployArchive_ok hx⟩

/-- Where an exception of the `try` block comes from: before the swap, from
the archive, or from dumping a string that is not UTF-8. -/
theorem deployBody_error {lib : JsonLibrary} {req : DeployRequest} {env : DeployEnv}
    {e : Exception} {s s' : WebServer} (h : deployBody lib req env s = .error e s') :
    (s' = s ∧ ∀ what, e ≠ .configArchiveError what) ∨ (∃ what, e = .jsonTypeError what) ∨
      ((∃ what, e = .configArchiveError what) ∧ ∃ doc db db', Deployed lib req s s' doc ∧
        s.archive = some db ∧ s'.archive = some db' ∧ db'.deployments = db.deployments) := by
  rcases StateExcept.bind_eq_error.mp h with hswap | ⟨⟨doc, program⟩, m, hswap, h₁⟩
  · exact .inl (deploySwap_error hswap)
  obtain ⟨hdeployed, harchive⟩ := deployed_of_swap hswap
  simp only [StateExcept.get_bind, harchive] at h₁
  cases ha : s.archive with
  | none =>
    simp only [ha] at h₁
    exact .inr (.inl ((deployUnarchived_answers lib program).error h₁).1)
  | some db =>
    simp only [ha] at h₁
    rcases StateExcept.bind_eq_error.mp h₁ with hcommit | ⟨commit, m', _, h₂⟩
    · obtain ⟨db', hx, rfl⟩ := onArchive_error hcommit
      obtain ⟨hdeployments, htype | hwhat⟩ := deployArchive_error hx
      · exact .inr (.inl htype)
      · exact .inr (.inr ⟨hwhat, doc, db, db', hdeployed.congr rfl, rfl, rfl, hdeployments⟩)
    · exact .inr (.inl ((deployArchived_answers lib req program commit).error h₂).1)

/-- A caught exception is answered with 400 or 500, and any other one escapes;
the runtime and the archive stay as they are. -/
theorem deployCatch_cases (lib : JsonLibrary) (e : Exception) (s : WebServer) :
    (∃ res s', deployCatch lib e s = .ok res s' ∧ (res.status = 400 ∨ res.status = 500) ∧
      SameState s s') ∨
    ∃ e' s', deployCatch lib e s = .error e' s' ∧ SameState s s' := by
  have hanswer : ∀ status error level message, (status = 400 ∨ status = 500) →
      (∃ res s', errorResponse lib status error level message s = .ok res s' ∧
        (res.status = 400 ∨ res.status = 500) ∧ SameState s s') ∨
      ∃ e' s', errorResponse lib status error level message s = .error e' s' ∧ SameState s s' := by
    intro status error level message hstatus
    rcases errorResponse_answers lib status error level message s with
      ⟨res, s', hok, rfl, hsame⟩ | ⟨what, s', herr, hsame, _⟩
    · exact .inl ⟨res, s', hok, hstatus, hsame⟩
    · exact .inr ⟨_, s', herr, hsame⟩
  cases e with
  | logicParseError what => exact hanswer _ _ _ _ (.inl rfl)
  | jsonParseError what => exact hanswer _ _ _ _ (.inl rfl)
  | configArchiveError what => exact hanswer _ _ _ _ (.inr rfl)
  | _ => exact .inr ⟨_, s, rfl, rfl, rfl⟩

/-- For every request handled alone and every failing statement: 400 means that
nothing changed, 200 that the new program runs and is archived, 500 that it
runs but is not recorded as deployed. -/
theorem postDeploy_status {lib : JsonLibrary} {req : DeployRequest} {env : DeployEnv}
    {res : Response} {s s' : WebServer} (h : postDeploy lib req env s = .ok res s') :
    (res.status = 200 ∨ res.status = 400 ∨ res.status = 500) ∧
    (res.status = 400 → s'.runtime = s.runtime ∧ s'.archive = s.archive) ∧
    (res.status = 200 → ∃ doc, Deployed lib req s s' doc ∧
      (s.archive = none → s'.archive = none) ∧
      ∀ db, s.archive = some db → ∃ db', s'.archive = some db' ∧ Archived lib doc db db') ∧
    (res.status = 500 → ∃ doc db db', Deployed lib req s s' doc ∧ s.archive = some db ∧
      s'.archive = some db' ∧ db'.deployments = db.deployments) := by
  rw [postDeploy] at h
  cases hbody : deployBody lib req env s with
  | ok res₁ s₁ =>
    rw [hbody] at h
    cases h
    obtain ⟨hstatus, hdone⟩ := deployBody_ok hbody
    exact ⟨.inl hstatus, by omega, fun _ => hdone, by omega⟩
  | error e s₁ =>
    simp only [hbody] at h
    have hcause := deployBody_error hbody
    cases e with
    | logicParseError what =>
      obtain ⟨hstatus, hrt, har⟩ := (errorResponse_answers _ _ _ _ _).ok h
      have hsame : s₁ = s := by simpa using hcause
      subst hsame
      exact ⟨.inr (.inl hstatus), fun _ => ⟨hrt, har⟩, by omega, by omega⟩
    | jsonParseError what =>
      obtain ⟨hstatus, hrt, har⟩ := (errorResponse_answers _ _ _ _ _).ok h
      have hsame : s₁ = s := by simpa using hcause
      subst hsame
      exact ⟨.inr (.inl hstatus), fun _ => ⟨hrt, har⟩, by omega, by omega⟩
    | configArchiveError what =>
      obtain ⟨hstatus, hrt, har⟩ := (errorResponse_answers _ _ _ _ _).ok h
      have harchive : ∃ doc db db', Deployed lib req s s₁ doc ∧ s.archive = some db ∧
          s₁.archive = some db' ∧ db'.deployments = db.deployments := by simpa using hcause
      obtain ⟨doc, db, db', hdeployed, hdb, hdb', hdep⟩ := harchive
      exact ⟨.inr (.inr hstatus), by omega, by omega,
        fun _ => ⟨doc, db, db', hdeployed.congr hrt, hdb, har.trans hdb', hdep⟩⟩
    | _ => cases h

def headFailureLibrary : JsonLibrary where
  parse text :=
    if text = "\x7b\"rules\":[]\x7d" then .ok (.object [("rules", .array [])])
    else .error (.parseError "[json.exception.parse_error.101] parse error at line 1, column 1")
  dump
    | .object [("rules", .array [])] => .ok "\x7b\"rules\":[]\x7d"
    | .object [("error", .string
        "deploy succeeded but archiving failed: failed to prepare HEAD query: disk I/O error")] =>
      .ok ("\x7b\"error\":\"deploy succeeded but archiving failed: " ++
        "failed to prepare HEAD query: disk I/O error\"\x7d")
    | _ => .error "[json.exception.type_error.316] invalid UTF-8 byte"
  dump_noNul := by
    intro j text h
    split at h
    · cases h
      decide
    · cases h
      decide
    · cases h

def headFailureEnv : DeployEnv :=
  ⟨⟨.prepareFails "disk I/O error", .runs, .runs⟩, .runs, 0, 0⟩

def archiveOnly : WebServer := ⟨.empty 100, some {}, none⟩

theorem postDeploy_status_headFailure :
    ∃ res s', postDeploy headFailureLibrary ⟨"\x7b\"rules\":[]\x7d", "", ""⟩ headFailureEnv
        archiveOnly = .ok res s' ∧ res.status = 500 ∧
      ∃ db', s'.archive = some db' ∧ db'.deployments = [] := by
  have hrun : ∃ res s', postDeploy headFailureLibrary ⟨"\x7b\"rules\":[]\x7d", "", ""⟩
      headFailureEnv archiveOnly = .ok res s' ∧ res.status = 500 := ⟨_, _, rfl, rfl⟩
  obtain ⟨res, s', hres, hstatus⟩ := hrun
  obtain ⟨_, _, _, h500⟩ := postDeploy_status hres
  obtain ⟨doc, db, db', _, hdb, hdb', hdep⟩ := h500 hstatus
  obtain rfl : ({} : Database) = db := Option.some.inj hdb
  exact ⟨res, s', hres, hstatus, db', hdb', hdep⟩

end Openaslc
