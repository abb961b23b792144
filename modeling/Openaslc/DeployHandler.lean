import Openaslc.ConfigArchive
import Openaslc.LogicGrammar
import Openaslc.LogicRuntime

/-! The handler of `POST /api/deploy`. An exception leaves the state as the
`try` block had changed it; three of the exception types are caught. -/

namespace Openaslc

inductive LogLevel
  | info
  | warn
  | error
  deriving DecidableEq

/-- What the handler can reach: the runtime, the archive if there is one, and
the calls of `log` made so far if there is a logger. -/
structure WebServer where
  runtime : LogicRuntime
  archive : Option Database
  log : Option (List (LogLevel × String))

/-- A request as the handler reads it; an absent parameter is empty. -/
structure DeployRequest where
  body : String
  author : String
  message : String

structure Response where
  status : Nat
  content : String
  contentType : String
  deriving DecidableEq

/-- What the clock and SQLite do during one request. -/
structure DeployEnv where
  fates : CommitFates
  deployment : Fate
  committedAt : Int
  deployedAt : Int

abbrev DeployM := EStateM Exception WebServer

def dumpJson (lib : JsonLibrary) (j : Json) : DeployM String := fun s =>
  match lib.dump j with
  | .ok text => .ok text s
  | .error what => .error (.jsonTypeError what) s

def logMessage (level : LogLevel) (message : String) : DeployM Unit := fun s =>
  .ok () { s with log := s.log.map fun entries => entries ++ [(level, message)] }

/-- `commit_to_json`; the keys of an object are sorted. -/
def commitToJson (commit : CommitInfo) : Json :=
  .object [("author", .string commit.author), ("created_at", .string commit.createdAt),
    ("message", .string commit.message),
    ("parent_sha256", match commit.parentSha256 with
      | some parent => .string parent
      | none => .null),
    ("sha256", .string commit.sha256)]

/-- Parsing, validation and swap. -/
def deploySwap (lib : JsonLibrary) (req : DeployRequest) : DeployM (Json × Nat) := fun s =>
  match lib.parse req.body with
  | .error failure => .error failure.exception s
  | .ok doc =>
    match s.runtime.reloadFromJson doc with
    | .error e => .error e s
    | .ok (runtime, program) => .ok (doc, program) { s with runtime }

def deployAuthor (req : DeployRequest) : String :=
  if req.author.isEmpty then "anonymous" else req.author

def deployCommit (lib : JsonLibrary) (req : DeployRequest) (env : DeployEnv) (doc : Json) :
    ArchiveM CommitInfo :=
  commitConfig lib env.fates env.committedAt (deployAuthor req) req.message doc

def deployRecord (env : DeployEnv) (commit : CommitInfo) : ArchiveM Unit :=
  recordDeployment env.deployment env.deployedAt commit.sha256

def deployArchive (lib : JsonLibrary) (req : DeployRequest) (env : DeployEnv) (doc : Json) :
    ArchiveM CommitInfo := do
  let commit ← deployCommit lib req env doc
  deployRecord env commit
  return commit

def onArchive {α : Type} (db : Database) (x : ArchiveM α) : DeployM α := fun s =>
  match x db with
  | .ok a db => .ok a { s with archive := some db }
  | .error e db => .error e { s with archive := some db }

def ruleCountJson (count : Nat) : String × Json :=
  ("rule_count", .numberUnsigned (UInt64.ofNat count))

/-- Log entry and response of a deploy whose archive writes are done. -/
def deployArchived (lib : JsonLibrary) (req : DeployRequest) (program : Nat) (commit : CommitInfo) :
    DeployM Response := do
  let count := ((← get).runtime.object program).ruleCount
  logMessage .info ("deploy: commit " ++ String.ofList (commit.sha256.toList.take 8) ++ " by " ++
    deployAuthor req ++ " (" ++ toString count ++ " rules)")
  let content ← dumpJson lib (.object [("commit", commitToJson commit), ruleCountJson count])
  return ⟨200, content, "application/json"⟩

def deployUnarchived (lib : JsonLibrary) (program : Nat) : DeployM Response := do
  let count := ((← get).runtime.object program).ruleCount
  let content ← dumpJson lib (.object [ruleCountJson count])
  return ⟨200, content, "application/json"⟩

/-- The `try` block. -/
def deployBody (lib : JsonLibrary) (req : DeployRequest) (env : DeployEnv) : DeployM Response := do
  let (doc, program) ← deploySwap lib req
  match (← get).archive with
  | some db => do
    let commit ← onArchive db (deployArchive lib req env doc)
    deployArchived lib req program commit
  | none => deployUnarchived lib program

def errorResponse (lib : JsonLibrary) (status : Nat) (error : String) (level : LogLevel)
    (message : String) : DeployM Response := do
  let content ← dumpJson lib (.object [("error", .string error)])
  logMessage level message
  return ⟨status, content, "application/json"⟩

/-- The `catch` clauses; any other exception leaves the handler. -/
def deployCatch (lib : JsonLibrary) : Exception → DeployM Response
  | .logicParseError text =>
    errorResponse lib 400 (cString text) .warn ("deploy rejected: " ++ cString text)
  | .jsonParseError what =>
    errorResponse lib 400 ("invalid JSON: " ++ what) .warn ("deploy rejected: invalid JSON: " ++ what)
  | .configArchiveError text =>
    errorResponse lib 500 ("deploy succeeded but archiving failed: " ++ cString text) .error
      ("archive write failed: " ++ cString text)
  | e => throw e

def postDeploy (lib : JsonLibrary) (req : DeployRequest) (env : DeployEnv) : DeployM Response :=
  fun s =>
    match deployBody lib req env s with
    | .ok res s => .ok res s
    | .error e s => deployCatch lib e s

end Openaslc
