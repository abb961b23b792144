import Openaslc.CommitAtomicity
import Openaslc.HashInput

/-! Commits made one after the other, where no statement fails by itself:
which of them get an id of their own. -/

namespace Openaslc

def CommitRequest.contents (lib : JsonLibrary) (req : CommitRequest) : CommitContents :=
  ⟨(lib.dump req.payload).toOption.getD "", req.author, req.message, currentTimestamp req.now⟩

def CommitRequest.id (lib : JsonLibrary) (req : CommitRequest) : String :=
  sha256Hex (req.contents lib).input

def CommitRequest.call (req : CommitRequest) : ArchiveCall := .commit ⟨.runs, .runs, .runs⟩ req

namespace ArchiveRun

variable {lib : JsonLibrary} {r : ArchiveRun}

def Fresh (lib : JsonLibrary) (db : Database) (req : CommitRequest) : Prop :=
  (∃ text, lib.dump req.payload = .ok text) ∧ ∀ row ∈ db.commits, row.sha256 ≠ req.id lib

theorem commit_sha256 {req : CommitRequest} {text : String} (hdump : lib.dump req.payload = .ok text)
    (head : Fate) (db : Database) : (req.commit head text db).sha256 = req.id lib := by
  rw [CommitRequest.id, CommitRequest.contents, hdump]
  rfl

theorem step_fresh (hr : Referenced r) {req : CommitRequest} (h : Fresh lib r.db req) :
    ∃ commit text, commit.sha256 = req.id lib ∧ commit.row.sha256 = req.id lib ∧
      step lib r req.call = ⟨r.db.withCommit commit text, r.committed ++ [(commit, req.payload)]⟩ := by
  obtain ⟨⟨text, hdump⟩, hfresh⟩ := h
  have hid := commit_sha256 hdump .runs r.db
  have hrow : (req.commit .runs text r.db).row.sha256 = req.id lib :=
    (row_sha256 req .runs text r.db).trans hid
  refine ⟨req.commit .runs text r.db, text, hid, hrow, ?_⟩
  have hsnapshots : ∀ row ∈ r.db.snapshots,
      row.commitSha256 ≠ (req.commit .runs text r.db).row.sha256 := by
    intro row hmem he
    obtain ⟨row', hrow', he'⟩ := hr row hmem
    exact hfresh row' hrow' (he'.trans (he.trans hrow))
  have hcommits : ∀ row ∈ r.db.commits, row.sha256 ≠ (req.commit .runs text r.db).row.sha256 :=
    hrow ▸ hfresh
  have hok := commitConfig_eq hdump req.now req.author req.message rfl hcommits hsnapshots
  simp only [CommitRequest.call, step, CommitRequest.run, hok]
  rfl

theorem step_not_fresh {req : CommitRequest} (h : ¬ Fresh lib r.db req) :
    (step lib r req.call).committed = r.committed := by
  have hcase := step_cases lib r req.call
  rw [CommitRequest.call] at hcase ⊢
  generalize step lib r (.commit ⟨.runs, .runs, .runs⟩ req) = r' at hcase
  cases hcase with
  | same => rfl
  | orphaned => rfl
  | done hmade _ hdump hfresh =>
    refine absurd ⟨⟨_, hdump⟩, ?_⟩ h
    rw [← commit_sha256 hdump .runs r.db, ← hmade]
    exact hfresh

def runCommits (lib : JsonLibrary) (r : ArchiveRun) (reqs : List CommitRequest) : ArchiveRun :=
  run lib r (reqs.map CommitRequest.call)

theorem runCommits_cons (lib : JsonLibrary) (r : ArchiveRun) (req : CommitRequest)
    (rest : List CommitRequest) :
    runCommits lib r (req :: rest) = runCommits lib (step lib r req.call) rest := rfl

theorem length_runCommits (lib : JsonLibrary) (r : ArchiveRun) (reqs : List CommitRequest) :
    (runCommits lib r reqs).committed.length ≤ r.committed.length + reqs.length := by
  induction reqs generalizing r with
  | nil => exact Nat.le_refl _
  | cons req rest ih =>
    have hrest := ih (step lib r req.call)
    have hstep : (step lib r req.call).committed.length ≤ r.committed.length + 1 := by
      have hcase := step_cases lib r req.call
      generalize step lib r req.call = r' at hcase
      cases hcase with
      | same => exact Nat.le_succ _
      | orphaned => exact Nat.le_succ _
      | done => simp
    rw [runCommits_cons, List.length_cons]
    omega

def AllFresh (lib : JsonLibrary) (db : Database) (reqs : List CommitRequest) : Prop :=
  (∀ req ∈ reqs, Fresh lib db req) ∧ (reqs.map (CommitRequest.id lib)).Nodup

theorem allFresh_cons {db db' : Database} {req : CommitRequest} {rest : List CommitRequest}
    {row : CommitInfo} (hreq : Fresh lib db req) (hrow : row.sha256 = req.id lib)
    (hdb : db'.commits = db.commits ++ [row]) :
    AllFresh lib db' rest ↔ AllFresh lib db (req :: rest) := by
  have hiff : ∀ req', Fresh lib db' req' ↔ Fresh lib db req' ∧ req.id lib ≠ req'.id lib := by
    intro req'
    simp only [Fresh, hdb, List.mem_append, List.mem_singleton, or_imp, forall_and, forall_eq, hrow,
      and_assoc]
  simp only [AllFresh, hiff, List.map_cons, List.nodup_cons, List.mem_cons, List.mem_map,
    forall_eq_or_imp, forall_and, not_exists, not_and]
  constructor
  · rintro ⟨⟨hfresh, hne⟩, hnodup⟩
    exact ⟨⟨hreq, hfresh⟩, fun req' hmem he => hne req' hmem he.symm, hnodup⟩
  · rintro ⟨⟨_, hfresh⟩, hne, hnodup⟩
    exact ⟨⟨hfresh, fun req' hmem he => hne req' hmem he.symm⟩, hnodup⟩

theorem all_return_iff (hr : Referenced r) (reqs : List CommitRequest) :
    (runCommits lib r reqs).committed.length = r.committed.length + reqs.length ↔
      AllFresh lib r.db reqs := by
  induction reqs generalizing r with
  | nil => exact ⟨fun _ => ⟨by simp, List.nodup_nil⟩, fun _ => rfl⟩
  | cons req rest ih =>
    rw [runCommits_cons, List.length_cons]
    have hr' : Referenced (step lib r req.call) := hr.step (step_cases lib r req.call)
    by_cases hreq : Fresh lib r.db req
    · obtain ⟨commit, text, _, hrow, hstep⟩ := step_fresh hr hreq
      have hcons : AllFresh lib (r.db.withCommit commit text) rest ↔
          AllFresh lib r.db (req :: rest) := allFresh_cons hreq hrow rfl
      rw [hstep] at hr' ⊢
      rw [← hcons, ← ih hr', List.length_append, List.length_singleton]
      omega
    · have hle := length_runCommits lib (step lib r req.call) rest
      rw [step_not_fresh hreq] at hle
      constructor
      · intro heq
        omega
      · exact fun hall => absurd (hall.1 req List.mem_cons_self) hreq

theorem ids_runCommits (hr : Referenced r) {reqs : List CommitRequest}
    (h : AllFresh lib r.db reqs) :
    (runCommits lib r reqs).committed.map (fun c => c.1.sha256) =
      r.committed.map (fun c => c.1.sha256) ++ reqs.map (CommitRequest.id lib) := by
  induction reqs generalizing r with
  | nil => simp [runCommits, run]
  | cons req rest ih =>
    have hr' : Referenced (step lib r req.call) := hr.step (step_cases lib r req.call)
    have hreq := h.1 req List.mem_cons_self
    obtain ⟨commit, text, hid, hrow, hstep⟩ := step_fresh hr hreq
    rw [hstep] at hr'
    have hnext : AllFresh lib (r.db.withCommit commit text) rest :=
      (allFresh_cons hreq hrow rfl).mpr h
    have hrest := ih hr' hnext
    rw [runCommits_cons, hstep, hrest]
    simp [hid]

def Distinguished (lib : JsonLibrary) (req req' : CommitRequest) : Prop :=
  req.contents lib ≠ req'.contents lib ∧
    ¬ CommitContents.Ambiguous (req.contents lib) (req'.contents lib)

theorem real_contents {req : CommitRequest} {text : String} (hdump : lib.dump req.payload = .ok text) :
    (req.contents lib).Real lib := by
  refine ⟨⟨req.payload, ?_⟩, req.now, rfl⟩
  rw [CommitRequest.contents, hdump]
  rfl

theorem id_ne_iff (hline : lib.SingleLine) {req req' : CommitRequest} {text text' : String}
    (hdump : lib.dump req.payload = .ok text) (hdump' : lib.dump req'.payload = .ok text')
    (hsha : req.id lib = req'.id lib → (req.contents lib).input = (req'.contents lib).input) :
    req.id lib ≠ req'.id lib ↔ Distinguished lib req req' := by
  have hinput : req.id lib = req'.id lib ↔ (req.contents lib).input = (req'.contents lib).input :=
    ⟨hsha, fun he => congrArg sha256Hex he⟩
  rw [ne_eq, hinput, CommitContents.input_eq_iff hline (real_contents hdump) (real_contents hdump'),
    not_or]
  rfl

theorem nodup_ids_iff (hline : lib.SingleLine) {reqs : List CommitRequest}
    (hdump : ∀ req ∈ reqs, ∃ text, lib.dump req.payload = .ok text)
    (hsha : ∀ req ∈ reqs, ∀ req' ∈ reqs, req.id lib = req'.id lib →
      (req.contents lib).input = (req'.contents lib).input) :
    (reqs.map (CommitRequest.id lib)).Nodup ↔ reqs.Pairwise (Distinguished lib) := by
  have hiff : ∀ {req req'}, req ∈ reqs → req' ∈ reqs →
      (req.id lib ≠ req'.id lib ↔ Distinguished lib req req') := by
    intro req req' hmem hmem'
    obtain ⟨text, htext⟩ := hdump req hmem
    obtain ⟨text', htext'⟩ := hdump req' hmem'
    exact id_ne_iff hline htext htext' (hsha req hmem req' hmem')
  rw [List.Nodup, List.pairwise_map]
  constructor
  · exact List.Pairwise.imp_of_mem fun hmem hmem' => (hiff hmem hmem').mp
  · exact List.Pairwise.imp_of_mem fun hmem hmem' => (hiff hmem hmem').mpr

/-- After any earlier calls: all of the commits return, with distinct ids,
exactly when they can be dumped, their ids are not in the table yet and the
hashed strings tell them apart. -/
theorem distinct_ids_iff (lib : JsonLibrary) (hline : lib.SingleLine) (earlier : List ArchiveCall)
    (reqs : List CommitRequest)
    (hsha : ∀ req ∈ reqs, ∀ req' ∈ reqs, req.id lib = req'.id lib →
      (req.contents lib).input = (req'.contents lib).input) :
    ((runCommits lib ⟨(run lib {} earlier).db, []⟩ reqs).committed.length = reqs.length ∧
      ((runCommits lib ⟨(run lib {} earlier).db, []⟩ reqs).committed.map
        fun c => c.1.sha256).Nodup) ↔
    (∀ req ∈ reqs, Fresh lib (run lib {} earlier).db req) ∧ reqs.Pairwise (Distinguished lib) := by
  have hr : Referenced ⟨(run lib {} earlier).db, []⟩ := referenced_run lib earlier
  have hreturn := @all_return_iff lib _ hr reqs
  rw [List.length_nil, Nat.zero_add] at hreturn
  have hids : (∀ req ∈ reqs, Fresh lib (run lib {} earlier).db req) →
      ((reqs.map (CommitRequest.id lib)).Nodup ↔ reqs.Pairwise (Distinguished lib)) :=
    fun hfresh => nodup_ids_iff hline (fun req hmem => (hfresh req hmem).1) hsha
  constructor
  · rintro ⟨hlength, _⟩
    obtain ⟨hfresh, hnodup⟩ := hreturn.mp hlength
    exact ⟨hfresh, (hids hfresh).mp hnodup⟩
  · rintro ⟨hfresh, hpairs⟩
    have hall : AllFresh lib (run lib {} earlier).db reqs := ⟨hfresh, (hids hfresh).mpr hpairs⟩
    refine ⟨hreturn.mpr hall, ?_⟩
    rw [ids_runCommits hr hall]
    exact hall.2

def noRulesRequest : CommitRequest := ⟨0, "operator", "first try", noRules⟩

theorem distinct_ids_iff_twice :
    ((runCommits .oneLine ⟨(run .oneLine {} []).db, []⟩
        [noRulesRequest, noRulesRequest]).committed.length = 2 ∧
      ((runCommits .oneLine ⟨(run .oneLine {} []).db, []⟩
        [noRulesRequest, noRulesRequest]).committed.map fun c => c.1.sha256).Nodup) ↔
    (∀ req ∈ [noRulesRequest, noRulesRequest], Fresh .oneLine (run .oneLine {} []).db req) ∧
      [noRulesRequest, noRulesRequest].Pairwise (Distinguished .oneLine) :=
  distinct_ids_iff .oneLine JsonLibrary.oneLine_singleLine [] [noRulesRequest, noRulesRequest]
    fun req hmem req' hmem' _ => by
      have heq : ∀ q ∈ [noRulesRequest, noRulesRequest], q = noRulesRequest := by simp
      rw [heq req hmem, heq req' hmem']

/-- The same deploy twice in one millisecond: the payload can be dumped and
every statement runs, but the second call finds its id in the table. -/
theorem runCommits_twice :
    (∃ text, JsonLibrary.oneLine.dump noRules = .ok text) ∧
      (runCommits .oneLine {} [noRulesRequest, noRulesRequest]).committed.length ≠ 2 := by
  refine ⟨⟨_, JsonLibrary.oneLine_dump (by decide)⟩, fun hlength => ?_⟩
  have hall := (all_return_iff (referenced_run .oneLine []) [noRulesRequest, noRulesRequest]).mp hlength
  simpa using hall.2

end ArchiveRun

end Openaslc
