import Openaslc.ArchiveRuns
import Openaslc.DeployStatus
import Openaslc.JsonUtf8

/-! The handler of `GET /api/history`, and which requests of a sequence of
deploys and histories get the answer of their own handler. -/

namespace Openaslc

def isSpace (c : Char) : Bool := c = ' ' || (0x09 ≤ c.toNat && c.toNat ≤ 0x0D)

def splitSign : List Char → Bool × List Char
  | '-' :: rest => (true, rest)
  | '+' :: rest => (false, rest)
  | text => (false, text)

/-- `std::stoi`; what follows the digits is ignored. -/
def stoi (text : String) : Except Exception Int32 :=
  let (negative, rest) := splitSign (text.toList.dropWhile isSpace)
  let digits := rest.takeWhile Char.isDigit
  if digits.isEmpty then
    throw (.invalidArgument "stoi")
  else
    let magnitude : Int := Nat.ofDigitChars 10 digits 0
    let value := if negative then -magnitude else magnitude
    if -2 ^ 31 ≤ value ∧ value < 2 ^ 31 then
      return Int32.ofInt value
    else
      throw (.outOfRange "stoi")

/-- A malformed `limit` keeps the default. -/
def historyLimit (param : Option String) : Int32 :=
  match param with
  | none => 50
  | some text =>
    match stoi text with
    | .ok limit => limit
    | .error _ => 50

example : historyLimit (some " -7x") = -7 ∧ historyLimit (some "2147483648") = 50 := by decide

def historyJson (commits : List CommitInfo) : Json :=
  .object [("commits", .array (commits.map commitToJson))]

/-- Nothing is caught here: a value that cannot be dumped leaves the handler. -/
def getHistory (lib : JsonLibrary) (fate : QueryFate) (limit : Option String) : ArchiveM Response := do
  let commits ← getCommitHistory fate (historyLimit limit)
  let content ← dumpPayload lib (historyJson commits)
  return ⟨200, content, "application/json"⟩

inductive WebRequest
  | deploy (req : DeployRequest) (env : DeployEnv)
  | history (limit : Option String) (fate : QueryFate)

/-- Without an archive there is no route for the history. -/
def WebRequest.handle (lib : JsonLibrary) : WebRequest → DeployM Response
  | .deploy req env => postDeploy lib req env
  | .history limit fate => do
    match (← get).archive with
    | some db => onArchive db (getHistory lib fate limit)
    | none => return ⟨404, "", ""⟩

def serve (lib : JsonLibrary) (s : WebServer) (request : WebRequest) : WebServer :=
  StateExcept.final (request.handle lib s)

def deployJson (commit : CommitInfo) (count : Nat) : Json :=
  .object [("commit", commitToJson commit), ruleCountJson count]

/-! ### What is dumped -/

theorem validText_deployJson {commit : CommitInfo} {count : Nat} :
    (deployJson commit count).ValidText ↔ commit.ValidText := by
  have hkeys := validUtf8_jsonKeys
  have hcommit : ValidUtf8 "commit" := hkeys _ (by simp [jsonKeys])
  have hcount : ValidUtf8 "rule_count" := hkeys _ (by simp [jsonKeys])
  rw [← validText_commitToJson]
  constructor
  · intro h s hs
    exact h s (by simp [deployJson, Json.texts, memberTexts, hs])
  · intro h s hs
    have htexts : (deployJson commit count).texts =
        "commit" :: ((commitToJson commit).texts ++ ["rule_count"]) := rfl
    rw [htexts, List.mem_cons, List.mem_append, List.mem_singleton] at hs
    rcases hs with rfl | hs | rfl
    · exact hcommit
    · exact h s hs
    · exact hcount

theorem validText_historyJson {commits : List CommitInfo} (h : ∀ commit ∈ commits, commit.ValidText) :
    (historyJson commits).ValidText := by
  have hkey : ValidUtf8 "commits" := validUtf8_jsonKeys _ (by simp [jsonKeys])
  intro s hs
  have htexts : (historyJson commits).texts =
      "commits" :: (elementTexts (commits.map commitToJson) ++ []) := rfl
  rw [htexts, List.append_nil, List.mem_cons, mem_elementTexts] at hs
  rcases hs with rfl | ⟨element, helement, hs⟩
  · exact hkey
  · obtain ⟨commit, hcommit, rfl⟩ := List.mem_map.mp helement
    exact (validText_commitToJson commit).mpr (h commit hcommit) s hs

theorem validUtf8_deployAuthor {req : DeployRequest} :
    ValidUtf8 (deployAuthor req) ↔ ValidUtf8 req.author := by
  unfold deployAuthor
  split
  · next hempty =>
    have hauthor : req.author = "" := by simpa using hempty
    have hanonymous : Graphic "anonymous" := by simp [Graphic, GraphicChar]
    have hempty : Graphic "" := by simp [Graphic]
    rw [hauthor]
    exact iff_of_true hanonymous.validUtf8 hempty.validUtf8
  · rfl

/-! ### One request -/

def DeployRequest.commitRequest (req : DeployRequest) (env : DeployEnv) (doc : Json) : CommitRequest :=
  ⟨env.committedAt, deployAuthor req, req.message, doc⟩

theorem deployArchive_commit {lib : JsonLibrary} {req : DeployRequest} {env : DeployEnv} {doc : Json}
    {commit : CommitInfo} {db db' : Database}
    (h : deployArchive lib req env doc db = .ok commit db') :
    (∃ text, commit = (req.commitRequest env doc).commit env.fates.head text db) ∧
      db'.commits = db.commits ++ [commit.row] := by
  obtain ⟨c, m, hcommit, h₁⟩ := StateExcept.bind_eq_ok.mp h
  obtain ⟨⟨⟩, m', hrecord, h₂⟩ := StateExcept.bind_eq_ok.mp h₁
  obtain rfl := recordDeployment_ok hrecord
  simp only [StateExcept.pure_eq, EStateM.Result.ok.injEq] at h₂
  obtain ⟨rfl, rfl⟩ := h₂
  have hcase := commitConfig_cases lib env.fates (req.commitRequest env doc) db
  obtain ⟨text, hmade, hm⟩ := hcase.of_ok hcommit
  rw [hm]
  exact ⟨⟨text, hmade⟩, rfl⟩

theorem deployArchive_runs {lib : JsonLibrary} {req : DeployRequest} {env : DeployEnv} {doc : Json}
    {commit : CommitInfo} {db db' : Database} (hcommit : deployCommit lib req env doc db = .ok commit db')
    (hruns : env.deployment = .runs) : deployArchive lib req env doc db =
      .ok commit (db'.withDeployment commit.sha256 env.deployedAt) := by
  have hrecord : deployRecord env commit db' =
      .ok () (db'.withDeployment commit.sha256 env.deployedAt) := by
    rw [deployRecord, hruns]
    exact recordDeployment_eq ..
  rw [deployArchive, StateExcept.bind_of_ok hcommit, StateExcept.bind_of_ok hrecord]
  rfl

theorem validText_commit {req : CommitRequest} {head : Fate} {text : String} {db : Database}
    (hrows : ∀ row ∈ db.commits, row.ValidText) :
    (req.commit head text db).ValidText ↔ ValidUtf8 req.author ∧ ValidUtf8 req.message := by
  constructor
  · intro h
    exact ⟨h.author, h.message⟩
  · rintro ⟨hauthor, hmessage⟩
    have hid := (sha256Hex_graphic (hashInput text req.author req.message
      (currentTimestamp req.now))).validUtf8
    have hat := (currentTimestamp_graphic req.now).validUtf8
    refine ⟨hid, fun parent hparent => ?_, hauthor, hmessage, hat⟩
    have hhead : headParent head db = some parent := hparent
    unfold headParent at hhead
    split at hhead
    · obtain ⟨row, hrow, rfl⟩ := Option.map_eq_some_iff.mp hhead
      exact (hrows row (List.mem_of_getLast? hrow)).sha256
    · cases hhead

/-- The program is acceptable and no archive statement fails. -/
structure Accepted (lib : JsonLibrary) (s : WebServer) (req : DeployRequest) (env : DeployEnv)
    (doc : Json) (p : LogicProgram) (db : Database) (commit : CommitInfo) (db' : Database) : Prop where
  parsed : lib.parse req.body = .ok doc
  program : LogicProgram.fromJson doc s.runtime.period = .ok p
  archive : s.archive = some db
  archived : deployArchive lib req env doc db = .ok commit db'

def dumped (lib : JsonLibrary) (body : Json) (s : WebServer) :
    EStateM.Result Exception WebServer Response :=
  match lib.dump body with
  | .ok text => .ok ⟨200, text, "application/json"⟩ s
  | .error what => .error (.jsonTypeError what) s

theorem dumpJson_bind (lib : JsonLibrary) (body : Json) (s : WebServer) :
    (do
      let content ← dumpJson lib body
      return ⟨200, content, "application/json"⟩ : DeployM Response) s = dumped lib body s := by
  cases h : lib.dump body with
  | ok text =>
    have hdump : dumpJson lib body s = .ok text s := by simp only [dumpJson, h]
    rw [StateExcept.bind_of_ok hdump, dumped, h]
    rfl
  | error what =>
    have hdump : dumpJson lib body s = .error (.jsonTypeError what) s := by simp only [dumpJson, h]
    rw [StateExcept.bind_of_error hdump, dumped, h]

theorem final_dumped (lib : JsonLibrary) (body : Json) (s : WebServer) :
    StateExcept.final (dumped lib body s) = s := by
  unfold dumped
  split <;> rfl

theorem deployArchived_eq (lib : JsonLibrary) (req : DeployRequest) (program : Nat)
    (commit : CommitInfo) (s : WebServer) :
    ∃ count s', s'.archive = s.archive ∧
      deployArchived lib req program commit s = dumped lib (deployJson commit count) s' := by
  have hlog : ∀ message, logMessage .info message s = .ok () { s with
      log := s.log.map fun entries => entries ++ [(.info, message)] } := fun _ => rfl
  rw [deployArchived, StateExcept.get_bind, StateExcept.bind_of_ok (hlog _)]
  generalize hs₁ : ({ s with log := _ } : WebServer) = s₁
  have harchive : s₁.archive = s.archive := by rw [← hs₁]
  exact ⟨_, s₁, harchive, dumpJson_bind lib (deployJson commit _) s₁⟩

/-- Everything is done by the time the response is dumped, and a failure there
is not caught. -/
theorem Accepted.postDeploy {lib : JsonLibrary} {s : WebServer} {req : DeployRequest}
    {env : DeployEnv} {doc : Json} {p : LogicProgram} {db : Database} {commit : CommitInfo}
    {db' : Database} (h : Accepted lib s req env doc p db commit db') :
    ∃ count s', s'.archive = some db' ∧
      postDeploy lib req env s = dumped lib (deployJson commit count) s' := by
  have hswap := deploySwap_eq h.parsed s h.program
  generalize hs₁ : ({ s with runtime := _ } : WebServer) = s₁ at hswap
  have harchive : s₁.archive = some db := by
    rw [← hs₁]
    exact h.archive
  have hon : onArchive db (deployArchive lib req env doc) s₁ =
      .ok commit { s₁ with archive := some db' } := by simp only [onArchive, h.archived]
  obtain ⟨count, s', hs', harchived⟩ := deployArchived_eq lib req s.runtime.objects.length commit
    { s₁ with archive := some db' }
  have hbody : deployBody lib req env s = dumped lib (deployJson commit count) s' := by
    rw [← harchived, deployBody, StateExcept.bind_of_ok hswap]
    simp only [StateExcept.get_bind, harchive]
    rw [StateExcept.bind_of_ok hon]
  refine ⟨count, s', hs', ?_⟩
  rw [Openaslc.postDeploy, hbody, dumped]
  cases lib.dump (deployJson commit count) with
  | ok text => rfl
  | error what => rfl

theorem history_handle {lib : JsonLibrary} {s : WebServer} {db : Database}
    (harchive : s.archive = some db) (limit : Option String) :
    (WebRequest.history limit .runs).handle lib s =
      dumped lib (historyJson (limited (historyLimit limit) db.commits.reverse)) s := by
  have hsame : { s with archive := some db } = s := by rw [← harchive]
  rw [WebRequest.handle, StateExcept.get_bind]
  simp only [harchive, onArchive, getHistory]
  have hquery : getCommitHistory .runs (historyLimit limit) db =
      .ok (limited (historyLimit limit) db.commits.reverse) db := rfl
  rw [StateExcept.bind_of_ok hquery]
  cases hdump : lib.dump (historyJson (limited (historyLimit limit) db.commits.reverse)) with
  | ok text =>
    have hd : dumpPayload lib (historyJson (limited (historyLimit limit) db.commits.reverse)) db =
        .ok text db := by simp only [dumpPayload, hdump]
    rw [StateExcept.bind_of_ok hd, dumped, hdump]
    simp only [StateExcept.pure_eq, hsame]
  | error what =>
    have hd : dumpPayload lib (historyJson (limited (historyLimit limit) db.commits.reverse)) db =
        .error (.jsonTypeError what) db := by simp only [dumpPayload, hdump]
    rw [StateExcept.bind_of_error hd, dumped, hdump]
    simp only [hsame]

/-! ### Sequences of requests -/

def WebRequest.Accepted (lib : JsonLibrary) (s : WebServer) : WebRequest → Prop
  | .deploy req env => ∃ doc p db commit db', Openaslc.Accepted lib s req env doc p db commit db'
  | .history _ fate => fate = .runs

def AllAccepted (lib : JsonLibrary) : WebServer → List WebRequest → Prop
  | _, [] => True
  | s, request :: rest => request.Accepted lib s ∧ AllAccepted lib (serve lib s request) rest

/-- The answer is 200, with the commit that the archive made for this request. -/
def DeployAnswered (lib : JsonLibrary) (s : WebServer) (req : DeployRequest) (env : DeployEnv)
    (commit : CommitInfo) : Prop :=
  (∃ doc db db', lib.parse req.body = .ok doc ∧ s.archive = some db ∧
    deployArchive lib req env doc db = .ok commit db') ∧
  ∃ text count s', postDeploy lib req env s = .ok ⟨200, text, "application/json"⟩ s' ∧
    lib.dump (deployJson commit count) = .ok text

/-- The answer is 200, with the commits made so far as the table holds them,
newest first, up to the limit of the request. -/
def HistoryAnswered (lib : JsonLibrary) (s : WebServer) (limit : Option String) (fate : QueryFate)
    (made : List CommitInfo) : Prop :=
  ∃ text s', (WebRequest.history limit fate).handle lib s = .ok ⟨200, text, "application/json"⟩ s' ∧
    lib.dump (historyJson (limited (historyLimit limit) (made.map CommitInfo.row).reverse)) = .ok text

def AllAnswered (lib : JsonLibrary) : List CommitInfo → WebServer → List WebRequest → Prop
  | _, _, [] => True
  | made, s, .deploy req env :: rest => ∃ commit, DeployAnswered lib s req env commit ∧
      AllAnswered lib (made ++ [commit]) (serve lib s (.deploy req env)) rest
  | made, s, .history limit fate :: rest => HistoryAnswered lib s limit fate made ∧
      AllAnswered lib made (serve lib s (.history limit fate)) rest

def DeployRequest.ValidText (req : DeployRequest) : Prop :=
  ValidUtf8 req.author ∧ ValidUtf8 req.message

theorem DeployAnswered.validText {lib : JsonLibrary} (hlib : lib.StrictUtf8) {s : WebServer}
    {req : DeployRequest} {env : DeployEnv} {commit : CommitInfo}
    (h : DeployAnswered lib s req env commit) : req.ValidText := by
  obtain ⟨⟨doc, db, db', _, _, harchive⟩, text, count, s', _, hdump⟩ := h
  obtain ⟨⟨payload, hcommit⟩, _⟩ := deployArchive_commit harchive
  have hvalid : commit.ValidText := validText_deployJson.mp ((hlib.dump _).mp ⟨text, hdump⟩)
  rw [hcommit] at hvalid
  exact ⟨validUtf8_deployAuthor.mp hvalid.author, hvalid.message⟩

theorem AllAnswered.validText {lib : JsonLibrary} (hlib : lib.StrictUtf8) {made : List CommitInfo}
    {s : WebServer} {requests : List WebRequest} (h : AllAnswered lib made s requests) :
    ∀ req env, WebRequest.deploy req env ∈ requests → req.ValidText := by
  induction requests generalizing made s with
  | nil => simp
  | cons request rest ih =>
    intro req env hmem
    cases request with
    | deploy req' env' =>
      obtain ⟨commit, hanswered, hrest⟩ := h
      rcases List.mem_cons.mp hmem with heq | hmem
      · cases heq
        exact hanswered.validText hlib
      · exact ih hrest req env hmem
    | history limit fate =>
      have hrest : WebRequest.deploy req env ∈ rest := by simpa using hmem
      exact ih h.2 req env hrest

structure Stored (s : WebServer) (made : List CommitInfo) : Prop where
  rows : ∃ db, s.archive = some db ∧ db.commits = made.map CommitInfo.row
  valid : ∀ commit ∈ made, commit.ValidText

theorem Stored.validRows {s : WebServer} {made : List CommitInfo} (h : Stored s made) :
    ∀ row ∈ made.map CommitInfo.row, row.ValidText := by
  intro row hrow
  obtain ⟨commit, hcommit, rfl⟩ := List.mem_map.mp hrow
  exact (h.valid commit hcommit).row

theorem Stored.deploy {lib : JsonLibrary} (hlib : lib.StrictUtf8) {s : WebServer}
    {made : List CommitInfo} (h : Stored s made) {req : DeployRequest} {env : DeployEnv}
    (haccepted : (WebRequest.deploy req env).Accepted lib s) (hvalid : req.ValidText) :
    ∃ commit, DeployAnswered lib s req env commit ∧
      Stored (serve lib s (.deploy req env)) (made ++ [commit]) := by
  obtain ⟨doc, p, db, commit, db', hacc⟩ := haccepted
  obtain ⟨db₀, hdb, hrows⟩ := h.rows
  obtain rfl : db = db₀ := Option.some.inj (hacc.archive.symm.trans hdb)
  obtain ⟨⟨payload, hcommit⟩, hcommits⟩ := deployArchive_commit hacc.archived
  have hvalidRows : ∀ row ∈ db.commits, row.ValidText := hrows ▸ h.validRows
  have hmade : commit.ValidText := by
    rw [hcommit]
    exact (validText_commit hvalidRows).mpr ⟨validUtf8_deployAuthor.mpr hvalid.1, hvalid.2⟩
  obtain ⟨count, s', hs', hanswer⟩ := hacc.postDeploy
  obtain ⟨text, htext⟩ := (hlib.dump (deployJson commit count)).mpr (validText_deployJson.mpr hmade)
  have hok : postDeploy lib req env s = .ok ⟨200, text, "application/json"⟩ s' := by
    rw [hanswer, dumped, htext]
  refine ⟨commit, ⟨⟨doc, db, db', hacc.parsed, hdb, hacc.archived⟩, text, count, s', hok, htext⟩,
    ⟨db', ?_, ?_⟩, ?_⟩
  · rw [serve, WebRequest.handle, hok]
    exact hs'
  · rw [hcommits, hrows, List.map_append]
    rfl
  · intro c hc
    rcases List.mem_append.mp hc with hc | hc
    · exact h.valid c hc
    · rw [List.mem_singleton.mp hc]
      exact hmade

theorem Stored.history {lib : JsonLibrary} (hlib : lib.StrictUtf8) {s : WebServer}
    {made : List CommitInfo} (h : Stored s made) (limit : Option String) :
    HistoryAnswered lib s limit .runs made ∧ Stored (serve lib s (.history limit .runs)) made := by
  obtain ⟨db, hdb, hrows⟩ := h.rows
  have hhandle := @history_handle lib s db hdb limit
  rw [hrows] at hhandle
  have hlisted : ∀ row ∈ limited (historyLimit limit) (made.map CommitInfo.row).reverse,
      row.ValidText := fun row hrow => h.validRows row (List.mem_reverse.mp (mem_of_mem_limited hrow))
  obtain ⟨text, htext⟩ := (hlib.dump _).mpr (validText_historyJson hlisted)
  refine ⟨⟨text, s, ?_, htext⟩, ?_⟩
  · rw [hhandle, dumped, htext]
  · rw [serve, hhandle, final_dumped]
    exact h

theorem Stored.allAnswered {lib : JsonLibrary} (hlib : lib.StrictUtf8) {s : WebServer}
    {made : List CommitInfo} (h : Stored s made) {requests : List WebRequest}
    (haccepted : AllAccepted lib s requests)
    (hvalid : ∀ req env, WebRequest.deploy req env ∈ requests → req.ValidText) :
    AllAnswered lib made s requests := by
  induction requests generalizing made s with
  | nil => trivial
  | cons request rest ih =>
    have hrest : ∀ req env, WebRequest.deploy req env ∈ rest → req.ValidText :=
      fun req env hmem => hvalid req env (List.mem_cons_of_mem _ hmem)
    cases request with
    | deploy req env =>
      obtain ⟨commit, hanswered, hstored⟩ :=
        h.deploy hlib haccepted.1 (hvalid req env List.mem_cons_self)
      exact ⟨commit, hanswered, ih hstored haccepted.2 hrest⟩
    | history limit fate =>
      obtain rfl : fate = .runs := haccepted.1
      obtain ⟨hanswered, hstored⟩ := h.history hlib limit
      exact ⟨hanswered, ih hstored haccepted.2 hrest⟩

/-- Where every program is acceptable and no statement fails, all requests are
answered by their handlers exactly when every author and message is UTF-8. -/
theorem allAnswered_iff (lib : JsonLibrary) (hlib : lib.StrictUtf8) (s : WebServer)
    (hempty : s.archive = some {}) (requests : List WebRequest)
    (haccepted : AllAccepted lib s requests) :
    AllAnswered lib [] s requests ↔
      ∀ req env, WebRequest.deploy req env ∈ requests → req.ValidText := by
  constructor
  · exact AllAnswered.validText hlib
  · have hstored : Stored s [] := ⟨⟨{}, hempty, rfl⟩, by simp⟩
    exact hstored.allAnswered hlib haccepted

/-- The library on texts without escapes, as strict as the real one. -/
def JsonLibrary.strict : JsonLibrary where
  parse := (JsonLibrary.plain [noRules]).parse
  dump j :=
    if j.ValidText then (JsonLibrary.plain [noRules]).dump j
    else .error "[json.exception.type_error.316] invalid UTF-8 byte"
  dump_noNul := by
    intro j text h
    split at h
    · exact (JsonLibrary.plain [noRules]).dump_noNul j text h
    · cases h

theorem validText_noRules : noRules.ValidText := by
  have hrules : Graphic "rules" := by simp [Graphic, GraphicChar]
  intro s hs
  have htexts : noRules.texts = ["rules"] := rfl
  rw [htexts, List.mem_singleton] at hs
  rw [hs]
  exact hrules.validUtf8

theorem JsonLibrary.strict_dump {j : Json} (h : j.ValidText) :
    JsonLibrary.strict.dump j = (JsonLibrary.plain [noRules]).dump j := if_pos h

theorem JsonLibrary.strict_strictUtf8 : JsonLibrary.strict.StrictUtf8 := by
  constructor
  · intro j
    by_cases hj : j.ValidText
    · exact iff_of_true ⟨_, JsonLibrary.strict_dump hj⟩ hj
    · have hdump : JsonLibrary.strict.dump j =
          .error "[json.exception.type_error.316] invalid UTF-8 byte" := if_neg hj
      refine iff_of_false (fun ⟨text, htext⟩ => ?_) hj
      rw [hdump] at htext
      cases htext
  · intro text doc h
    have hparse : (JsonLibrary.plain [noRules]).parse text = .ok doc := h
    simp only [JsonLibrary.plain] at hparse
    split at hparse
    · next document hfind =>
      have hmem := List.mem_of_find?_eq_some hfind
      obtain rfl : document = noRules := List.mem_singleton.mp hmem
      cases hparse
      exact validText_noRules
    · cases hparse

def noRulesBody (author : String) : DeployRequest := ⟨"\x7b\"rules\":[]\x7d", author, "first try"⟩

def runsEnv : DeployEnv := ⟨⟨.runs, .runs, .runs⟩, .runs, 0, 0⟩

def noRulesDeploy (author : String) : WebRequest := .deploy (noRulesBody author) runsEnv

theorem noRulesDeploy_accepted (author : String) :
    (noRulesDeploy author).Accepted .strict archiveOnly := by
  have hdump : JsonLibrary.strict.dump noRules = .ok "\x7b\"rules\":[]\x7d" :=
    (JsonLibrary.strict_dump validText_noRules).trans (JsonLibrary.plain_dump [noRules] (by decide))
  have hparse : JsonLibrary.strict.parse "\x7b\"rules\":[]\x7d" = .ok noRules := rfl
  have hprogram : ∃ p, LogicProgram.fromJson noRules 100 = .ok p := ⟨_, rfl⟩
  obtain ⟨p, hp⟩ := hprogram
  have hcommit := @commitConfig_eq .strict noRules _ {} hdump 0
    (deployAuthor (noRulesBody author)) "first try" _ rfl (by simp) (by simp)
  have harchived := @deployArchive_runs .strict (noRulesBody author) runsEnv noRules _ {} _ hcommit rfl
  exact ⟨noRules, p, {}, _, _, hparse, hp, rfl, harchived⟩

theorem allAnswered_iff_operator :
    AllAnswered .strict [] archiveOnly [noRulesDeploy "operator", .history none .runs] ↔
      ∀ req env, WebRequest.deploy req env ∈ [noRulesDeploy "operator", .history none .runs] →
        req.ValidText :=
  allAnswered_iff .strict JsonLibrary.strict_strictUtf8 archiveOnly rfl
    [noRulesDeploy "operator", .history none .runs] ⟨noRulesDeploy_accepted "operator", rfl, trivial⟩

/-- The author that `?author=%FF` names. -/
def highByte : String := String.ofList [Char.ofNat 0xFF]

theorem allAnswered_highByte :
    AllAccepted .strict archiveOnly [noRulesDeploy highByte, .history none .runs] ∧
      ¬ AllAnswered .strict [] archiveOnly [noRulesDeploy highByte, .history none .runs] := by
  refine ⟨⟨noRulesDeploy_accepted highByte, rfl, trivial⟩, fun h => ?_⟩
  obtain ⟨hauthor, _⟩ := h.validText JsonLibrary.strict_strictUtf8 _ _ List.mem_cons_self
  have hmem : 0xFF ∈ highByte.toList.map Char.toNat := by decide
  exact Utf8.not_valid_of_mem hmem hauthor

end Openaslc
