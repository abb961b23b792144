import Openaslc.ArchiveRuns
import Openaslc.DeployInterleaving
import Openaslc.JsonNormal

/-! What `get_snapshot` gives back: in every interleaving of deploys, a document
that one of them had swapped in, and that builds the same program again. -/

namespace Openaslc

/-- What was parsed, dumped and parsed again is the same value, up to the form
of its nonnegative integers. -/
def JsonLibrary.RoundTrips (lib : JsonLibrary) : Prop :=
  ∀ body doc text, lib.parse body = .ok doc → lib.dump doc = .ok text →
    ∃ doc', lib.parse text = .ok doc' ∧ doc'.normal = doc.normal

theorem getSnapshot_ok {lib : JsonLibrary} {fate : Fate} {sha256 : String} {db db' : Database} {doc : Json}
    (h : getSnapshot lib fate sha256 db = .ok doc db') :
    ∃ row ∈ db.snapshots, row.commitSha256 = cString sha256 ∧ lib.parse row.payload = .ok doc := by
  have hrow : ∃ row, findSnapshot fate sha256 db = some row ∧ lib.parse row.payload = .ok doc := by
    cases fate with
    | prepareFails errmsg => cases h
    | _ =>
      simp only [getSnapshot] at h
      split at h
      · cases h
      · next row hfind =>
        split at h
        · next d hparse =>
          obtain ⟨rfl, _⟩ := EStateM.Result.ok.inj h
          exact ⟨row, hfind, hparse⟩
        · cases h
  obtain ⟨row, hfind, hparse⟩ := hrow
  cases fate with
  | runs => exact ⟨row, List.mem_of_find?_eq_some hfind, by simpa using List.find?_some hfind, hparse⟩
  | _ => cases hfind

namespace DeploySystem

variable {ι : Type} {lib : JsonLibrary} {req : ι → DeployRequest}

/-! ### What was swapped in -/

/-- The program of a request is an object that its own swap has built. -/
def Installed (lib : JsonLibrary) (req : ι → DeployRequest) (events : List (Event ι))
    (s : DeploySystem ι) : Prop :=
  ∀ i doc a, (s.locals i).program = some (doc, a) → lib.parse (req i).body = .ok doc ∧
    .swap i ∈ events ∧ ∃ prog, LogicProgram.fromJson doc s.server.runtime.period = .ok prog ∧
      s.server.runtime.objects[a]? = some prog

theorem Installed.congr {events : List (Event ι)} {s s' : DeploySystem ι} {e : Event ι}
    (h : Installed lib req events s) (hlocals : ∀ i, (s'.locals i).program = (s.locals i).program)
    (hruntime : s'.server.runtime = s.server.runtime) : Installed lib req (events ++ [e]) s' := by
  intro i doc a hp
  obtain ⟨hparse, hmem, hprog⟩ := h i doc a (hlocals i ▸ hp)
  rw [hruntime]
  exact ⟨hparse, List.mem_append_left _ hmem, hprog⟩

def CommittedAfterSwap (events : List (Event ι)) (i : ι) : Prop :=
  ∃ before env after, events = before ++ .commit i env :: after ∧ .swap i ∈ before

theorem CommittedAfterSwap.concat {events : List (Event ι)} {i : ι} (h : CommittedAfterSwap events i)
    (e : Event ι) : CommittedAfterSwap (events ++ [e]) i := by
  obtain ⟨before, env, after, rfl, hmem⟩ := h
  exact ⟨before, env, after ++ [e], by simp, hmem⟩

variable [DecidableEq ι]

theorem Installed.swap {events : List (Event ι)} {s : DeploySystem ι} {i : ι} (hfresh : s.locals i = {})
    (h : Installed lib req events s) :
    Installed lib req (events ++ [.swap i]) (s.swapStep lib req i) := by
  rw [swapStep]
  split
  · next program server hswap =>
    obtain ⟨doc, a⟩ := program
    obtain ⟨hparse, runtime, hreload, rfl⟩ := deploySwap_ok hswap
    obtain ⟨prog, hprog, rfl, rfl⟩ := LogicRuntime.reloadFromJson_ok hreload
    intro j d b hp
    rw [locals_set] at hp
    by_cases hj : j = i
    · rw [if_pos hj] at hp
      obtain ⟨rfl, rfl⟩ := Prod.mk.inj (Option.some.inj hp)
      subst hj
      exact ⟨hparse, by simp, prog, hprog, by simp [set, LogicRuntime.reload, LogicRuntime.allocate]⟩
    · rw [if_neg hj] at hp
      obtain ⟨hparse', hmem, prog', hprog', hobject⟩ := h j d b hp
      obtain ⟨hlt, _⟩ := List.getElem?_eq_some_iff.mp hobject
      refine ⟨hparse', List.mem_append_left _ hmem, prog', hprog', ?_⟩
      exact (List.getElem?_append_left hlt).trans hobject
  · next e server hswap =>
    obtain ⟨rfl, _⟩ := deploySwap_error hswap
    obtain ⟨status, server', hans, _, hruntime, _⟩ := answer_catch lib s i e s.server
    rw [hans]
    refine h.congr (fun j => ?_) hruntime
    rw [locals_set]
    split
    · next hj => rw [hj]
    · rfl

theorem Installed.step {events : List (Event ι)} {s s' : DeploySystem ι} {e : Event ι}
    (h : Installed lib req events s) (hstep : step lib req s e = some s') :
    Installed lib req (events ++ [e]) s' := by
  have hlocals : ∀ (i : ι) (server : WebServer) (l : DeployLocals),
      l.program = (s.locals i).program → ∀ j,
        ((s.set i server l).locals j).program = (s.locals j).program := by
    intro i server l hl j
    rw [locals_set]
    split
    · next hj => rw [hj, hl]
    · rfl
  by_cases hswap : ∃ i, e = .swap i
  · obtain ⟨i, rfl⟩ := hswap
    simp only [DeploySystem.step] at hstep
    split at hstep
    · next hfresh =>
      obtain rfl := Option.some.inj hstep
      exact h.swap hfresh
    · cases hstep
  · cases step_case hstep with
    | swapped => exact absurd ⟨_, rfl⟩ hswap
    | committed here => exact h.congr (hlocals _ _ _ (by rw [here])) rfl
    | recorded here _ _ runtime => exact h.congr (hlocals _ _ _ (by rw [here])) runtime
    | failed _ _ runtime => exact h.congr (hlocals _ _ _ rfl) runtime

/-! ### What was archived -/

/-- Every snapshot is the text of a document that was swapped in before it was
committed. -/
def Archived (lib : JsonLibrary) (events : List (Event ι)) (s : DeploySystem ι) : Prop :=
  ∀ db, s.server.archive = some db → ∀ row ∈ db.snapshots, ∃ i doc a,
    (s.locals i).program = some (doc, a) ∧ lib.dump doc = .ok row.payload ∧ CommittedAfterSwap events i

theorem Archived.congr {events : List (Event ι)} {s s' : DeploySystem ι} {e : Event ι}
    (h : Archived lib events s) (hstep : StepCase lib req s e s')
    (harchive : ∀ db', s'.server.archive = some db' → ∃ db, s.server.archive = some db ∧
      db'.snapshots = db.snapshots) : Archived lib (events ++ [e]) s' := by
  intro db' hdb' row hrow
  obtain ⟨db, hdb, hsame⟩ := harchive db' hdb'
  obtain ⟨i, doc, a, hp, hdump, horder⟩ := h db hdb row (hsame ▸ hrow)
  exact ⟨i, doc, a, hstep.program hp, hdump, horder.concat e⟩

theorem Archived.step {events : List (Event ι)} {s s' : DeploySystem ι} {e : Event ι}
    (harchive : ∃ db, s.server.archive = some db) (hinstalled : Installed lib req events s)
    (h : Archived lib events s) (hstep : step lib req s e = some s') : Archived lib (events ++ [e]) s' := by
  have hcase := step_case hstep
  have hstep := hcase
  cases hcase with
  | swapped _ _ _ _ archive => exact h.congr hstep fun db' hdb' => ⟨db', archive ▸ hdb', rfl⟩
  | @committed i env doc a db db' text commit here archive dumped _ snapshots =>
    intro db₁ hdb₁ row hrow
    obtain rfl : db' = db₁ := Option.some.inj hdb₁
    rw [snapshots] at hrow
    rcases List.mem_append.mp hrow with hold | hnew
    · obtain ⟨j, d, b, hp, hdump, horder⟩ := h db archive row hold
      exact ⟨j, d, b, hstep.program hp, hdump, horder.concat _⟩
    · rw [List.mem_singleton.mp hnew]
      have hp : (s.locals i).program = some (doc, a) := by rw [here]
      obtain ⟨_, hswapped, _⟩ := hinstalled i doc a hp
      exact ⟨i, doc, a, hstep.program hp, dumped, events, env, [], rfl, hswapped⟩
  | recorded _ archive _ _ archive' =>
    refine h.congr hstep fun db' hdb' => ⟨_, archive, ?_⟩
    rw [← Option.some.inj (archive'.symm.trans hdb')]
  | failed _ _ _ archive =>
    obtain ⟨db, hdb⟩ := harchive
    obtain ⟨db₁, hdb₁, hsame, _⟩ := archive db hdb
    refine h.congr hstep fun db' hdb' => ⟨db, hdb, ?_⟩
    rw [← hsame, ← Option.some.inj (hdb₁.symm.trans hdb')]

theorem run_archived {s₀ s : DeploySystem ι} {events : List (Event ι)} (h₀ : s₀.Initial)
    (hempty : ∀ db, s₀.server.archive = some db → db.snapshots = [])
    (h : run lib req s₀ events = some s) : Installed lib req events s ∧ Archived lib events s := by
  obtain ⟨hidle, db₀, hdb₀⟩ := h₀
  have hruns : (∃ db, s.server.archive = some db) ∧ Installed lib req events s ∧
      Archived lib events s := by
    refine Machine.run_induction (fun events s => (∃ db, s.server.archive = some db) ∧
      Installed lib req events s ∧ Archived lib events s) ?_ ?_ h
    · refine ⟨⟨db₀, hdb₀⟩, fun i doc a hp => ?_, fun db hdb row hrow => ?_⟩
      · simp [hidle] at hp
      · simp [hempty db hdb] at hrow
    · rintro events s e s' _ ⟨harchive, hinstalled, harchived⟩ hstep
      refine ⟨?_, hinstalled.step hstep, harchived.step harchive hinstalled hstep⟩
      obtain ⟨db, hdb⟩ := harchive
      cases step_case hstep with
      | swapped _ _ _ _ archive => exact ⟨db, archive.trans hdb⟩
      | committed => exact ⟨_, rfl⟩
      | recorded _ _ _ _ archive' => exact ⟨_, archive'⟩
      | failed _ _ _ archive =>
        obtain ⟨db', hdb', _⟩ := archive db hdb
        exact ⟨db', hdb'⟩
  exact hruns.2

/-- In every interleaving, with any failures, from an archive without snapshots: a
snapshot that can be read is, in another form at most, the document that a
request had swapped in before it committed it, and reloading it makes a fresh
copy of that request's program current. -/
theorem snapshot_restores {s₀ s : DeploySystem ι} {events : List (Event ι)} (hlib : lib.RoundTrips)
    (h₀ : s₀.Initial) (hempty : ∀ db, s₀.server.archive = some db → db.snapshots = [])
    (h : run lib req s₀ events = some s) {db db' : Database} (hdb : s.server.archive = some db)
    {fate : Fate} {sha256 : String} {doc' : Json}
    (hget : getSnapshot lib fate sha256 db = .ok doc' db') :
    ∃ i doc a prog rt, lib.parse (req i).body = .ok doc ∧ doc'.normal = doc.normal ∧
      CommittedAfterSwap events i ∧ (s.locals i).program = some (doc, a) ∧
      s.server.runtime.objects[a]? = some prog ∧
      s.server.runtime.reloadFromJson doc' = .ok (rt, s.server.runtime.objects.length) ∧
      rt.getCurrent = some prog := by
  obtain ⟨hinstalled, harchived⟩ := run_archived h₀ hempty h
  obtain ⟨row, hrow, _, hparse'⟩ := getSnapshot_ok hget
  obtain ⟨i, doc, a, hp, hdump, horder⟩ := harchived db hdb row hrow
  obtain ⟨hparse, _, prog, hprog, hobject⟩ := hinstalled i doc a hp
  obtain ⟨d, hagain, hsame⟩ := hlib _ doc row.payload hparse hdump
  obtain rfl : d = doc' := Except.ok.inj (hagain.symm.trans hparse')
  have hprog' : LogicProgram.fromJson d s.server.runtime.period = .ok prog := by
    rw [← fromJson_normal, hsame, fromJson_normal, hprog]
  refine ⟨i, doc, a, prog, _, hparse, hsame, horder, hp, hobject, ?_,
    s.server.runtime.getCurrent_reload_allocate prog⟩
  rw [LogicRuntime.reloadFromJson, hprog']
  rfl

end DeploySystem

theorem JsonLibrary.plain_roundTrips {doc : Json}
    (h : ((plainText doc).toList.all fun c => c != Char.ofNat 0) = true) :
    (JsonLibrary.plain [doc]).RoundTrips := by
  have hknown : ∀ text d, (JsonLibrary.plain [doc]).parse text = .ok d → d = doc := by
    intro text d hparse
    simp only [JsonLibrary.plain] at hparse
    split at hparse
    · next d' hfind =>
      obtain rfl := Except.ok.inj hparse
      simpa using List.mem_of_find?_eq_some hfind
    · cases hparse
  intro body d text hparse hdump
  obtain rfl := hknown body d hparse
  rw [JsonLibrary.plain_dump [d] h] at hdump
  obtain rfl := Except.ok.inj hdump
  exact ⟨d, by simp [JsonLibrary.plain], rfl⟩

/-- The snapshot of the only commit there is. -/
theorem getSnapshot_only {lib : JsonLibrary} {db : Database} {text : String} {doc : Json}
    (hparse : lib.parse text = .ok doc) (hempty : db.snapshots = []) (commit : CommitInfo) (now : Int) :
    getSnapshot lib .runs commit.sha256 ((db.withCommit commit text).withDeployment commit.sha256 now) =
      .ok doc ((db.withCommit commit text).withDeployment commit.sha256 now) := by
  have hfind : findSnapshot .runs commit.sha256
      ((db.withCommit commit text).withDeployment commit.sha256 now) =
        some ⟨commit.row.sha256, text⟩ := by
    simp [findSnapshot, Database.withCommit, Database.withDeployment, hempty, CommitInfo.row]
  simp only [getSnapshot, hfind, hparse]

namespace DeploySystem

/-- `%Q0.0 := NOT %I0.0`. -/
def invertingRule : RuleSpec :=
  ⟨"inverted", ⟨.output, ⟨0, getSize_pos .output⟩, 0⟩, by decide,
    .not (.input ⟨.input, ⟨0, getSize_pos .input⟩, 0⟩)⟩

def invertingText : String := plainText (canonicalDocument [invertingRule])

def invertingLibrary : JsonLibrary := .plain [canonicalDocument [invertingRule]]

def invertingRequest (_ : Unit) : DeployRequest := ⟨invertingText, "", ""⟩

def invertingInitial : DeploySystem Unit := ⟨⟨.empty 100, some {}, none⟩, fun _ => {}⟩

def invertingCommit : CommitInfo :=
  ⟨sha256Hex (hashInput invertingText "anonymous" "" (currentTimestamp 1)), none, "anonymous", "",
    currentTimestamp 1⟩

theorem snapshot_restores_inverted : ∃ s db db' sha256 doc',
    run invertingLibrary invertingRequest invertingInitial
      [.swap (), .commit () (quietEnv 1), .record () (quietEnv 1)] = some s ∧
    getSnapshot invertingLibrary .runs sha256 db = .ok doc' db' ∧
    ∃ i doc a prog rt, invertingLibrary.parse (invertingRequest i).body = .ok doc ∧
      doc'.normal = doc.normal ∧
      CommittedAfterSwap [.swap (), .commit () (quietEnv 1), .record () (quietEnv 1)] i ∧
      (s.locals i).program = some (doc, a) ∧ s.server.runtime.objects[a]? = some prog ∧
      s.server.runtime.reloadFromJson doc' = .ok (rt, s.server.runtime.objects.length) ∧
      rt.getCurrent = some prog := by
  have hplain : ((plainText (canonicalDocument [invertingRule])).toList.all fun c =>
      c != Char.ofNat 0) = true := by decide +kernel
  have hdump : invertingLibrary.dump (canonicalDocument [invertingRule]) = .ok invertingText :=
    JsonLibrary.plain_dump _ hplain
  have hparse : invertingLibrary.parse invertingText = .ok (canonicalDocument [invertingRule]) := by
    simp [invertingLibrary, invertingText, JsonLibrary.plain]
  have hbody : invertingLibrary.parse (invertingRequest ()).body = .ok (canonicalDocument [invertingRule]) := by
    have hsame : (invertingRequest ()).body = invertingText := rfl
    rw [hsame, hparse]
  have hprog := fromJson_of_denotes 100 (denotes_canonicalDocument [invertingRule])
  obtain ⟨s₁, hswap, hs₁⟩ : ∃ s₁, step invertingLibrary invertingRequest invertingInitial (.swap ()) =
      some s₁ ∧ s₁ = invertingInitial.set () _ _ :=
    ⟨_, step_swap_eq rfl hbody hprog, rfl⟩
  have hlocals : s₁.locals () = { program := some (canonicalDocument [invertingRule], 0) } := by
    rw [hs₁]
    rfl
  have harchive : s₁.server.archive = some {} := by
    rw [hs₁]
    rfl
  have hsilent : ∀ row ∈ ({} : Database).commits, row.sha256 ≠ invertingCommit.row.sha256 :=
    fun _ hrow => absurd hrow List.not_mem_nil
  have hsilent' : ∀ row ∈ ({} : Database).snapshots, row.commitSha256 ≠ invertingCommit.row.sha256 :=
    fun _ hrow => absurd hrow List.not_mem_nil
  have hcommit : invertingCommit = ⟨sha256Hex (hashInput invertingText (deployAuthor (invertingRequest ()))
      (invertingRequest ()).message (currentTimestamp 1)), none, deployAuthor (invertingRequest ()),
      (invertingRequest ()).message, currentTimestamp 1⟩ := rfl
  have htotal : ∀ j, ∃ text, invertingLibrary.dump j = .ok text := fun _ => ⟨_, rfl⟩
  obtain ⟨s, hrest, _, _, hdb⟩ := run_commit_record htotal invertingRequest 1
    invertingCommit hlocals harchive hdump hcommit hsilent hsilent'
  have hrun := Machine.run_cons.mpr ⟨s₁, hswap, hrest⟩
  have hget := @getSnapshot_only _ {} _ _ hparse rfl invertingCommit 1
  have hempty : ∀ db, invertingInitial.server.archive = some db → db.snapshots = [] := by
    rintro db ⟨⟩
    rfl
  have hlib : invertingLibrary.RoundTrips := JsonLibrary.plain_roundTrips hplain
  have hrestores := snapshot_restores hlib ⟨fun _ => rfl, {}, rfl⟩ hempty hrun hdb hget
  exact ⟨s, _, _, _, _, hrun, hget, hrestores⟩

end DeploySystem

end Openaslc
