import Openaslc.CommitHistory

/-! The commit that a call returns against the row that later histories show.
The two differ where a C string ends early. -/

namespace Openaslc

theorem cString_eq_iff (s : String) : cString s = s ↔ Char.ofNat 0 ∉ s.toList := by
  constructor
  · intro h hmem
    rw [← h, cString, String.toList_ofList] at hmem
    simpa using List.mem_takeWhile_imp hmem
  · exact cString_eq

theorem cString_currentTimestamp (now : Int) :
    cString (currentTimestamp now) = currentTimestamp now :=
  cString_eq ((currentTimestamp_graphic now).notMem (by decide))

theorem getCommitHistory_ok {fate : QueryFate} {limit : Int32} {history : List CommitInfo}
    {db db' : Database} (h : getCommitHistory fate limit db = .ok history db') :
    db' = db ∧ ∃ n, history = db.commits.reverse.take n := by
  have hlimited : ∃ n, limited limit db.commits.reverse = db.commits.reverse.take n := by
    unfold limited
    split
    · exact ⟨_, (List.take_length).symm⟩
    · exact ⟨_, rfl⟩
  obtain ⟨n, hn⟩ := hlimited
  cases fate with
  | prepareFails errmsg => cases h
  | runs =>
    cases h
    exact ⟨rfl, n, hn⟩
  | stepFails rows =>
    cases h
    exact ⟨rfl, min rows n, by rw [hn, List.take_take]⟩

theorem limited_head {α : Type} {limit : Int32} (h : limit ≠ 0) (rows : List α) :
    (limited limit rows).head? = rows.head? := by
  unfold limited
  split
  · rfl
  · next hneg =>
    have hpos : limit.toInt.toNat ≠ 0 := by
      intro hzero
      apply h
      rw [← Int32.toInt_inj]
      have hlt : ¬ limit.toInt < 0 := by simpa [Int32.lt_iff_toInt_lt] using hneg
      have he : (0 : Int32).toInt = 0 := rfl
      omega
    rw [List.head?_take, if_neg hpos]

namespace ArchiveRun

variable {lib : JsonLibrary} {r : ArchiveRun}

/-- The ids that the table holds are whole. -/
def IdsWhole (r : ArchiveRun) : Prop := ∀ row ∈ r.db.commits, cString row.sha256 = row.sha256

theorem IdsWhole.step (h : IdsWhole r) {call : ArchiveCall} {r' : ArchiveRun}
    (hcase : StepCase lib r call r') : IdsWhole r' := by
  have hconcat : ∀ (req : CommitRequest) head text row,
      row ∈ r.db.commits ++ [(req.commit head text r.db).row] → cString row.sha256 = row.sha256 := by
    intro req head text row hrow
    rcases List.mem_append.mp hrow with hrow | hrow
    · exact h row hrow
    · rw [List.mem_singleton.mp hrow]
      exact cString_cString _
  cases hcase with
  | same _ hcommits => simpa [IdsWhole, hcommits] using h
  | orphaned => exact hconcat _ _ _
  | done hmade =>
    subst hmade
    exact hconcat _ _ _

theorem idsWhole_run (lib : JsonLibrary) (calls : List ArchiveCall) : IdsWhole (run lib {} calls) :=
  run_invariant IdsWhole (fun _ _ _ hr _ hcase => hr.step hcase) (by simp [IdsWhole])
    (along_of_forall (P := fun _ => True) lib {} (by simp))

theorem StepCase.commits_prefix {call : ArchiveCall} {r' : ArchiveRun}
    (h : StepCase lib r call r') : r.db.commits <+: r'.db.commits := by
  cases h with
  | same _ hcommits => simp [hcommits]
  | orphaned => exact List.prefix_append _ _
  | done => exact List.prefix_append _ _

theorem run_commits_prefix (lib : JsonLibrary) (r : ArchiveRun) (calls : List ArchiveCall) :
    r.db.commits <+: (run lib r calls).db.commits :=
  run_invariant (fun r' => r.db.commits <+: r'.db.commits)
    (fun _ _ _ hr _ hcase => hr.trans hcase.commits_prefix) (List.prefix_refl _)
    (along_of_forall (P := fun _ => True) lib r (by simp))

theorem IdsWhole.row_eq_iff (h : IdsWhole r) (req : CommitRequest) (head : Fate) (text : String) :
    (req.commit head text r.db).row = req.commit head text r.db ↔
      Char.ofNat 0 ∉ req.author.toList ∧ Char.ofNat 0 ∉ req.message.toList := by
  have hparent : (headParent head r.db).map cString = headParent head r.db := by
    cases head with
    | runs =>
      cases hlast : r.db.commits.getLast? with
      | none => simp [headParent, hlast]
      | some row => simp [headParent, hlast, h row (List.mem_of_getLast? hlast)]
    | _ => rfl
  simp [CommitInfo.row, CommitRequest.commit, hparent, cString_sha256Hex,
    cString_currentTimestamp, cString_eq_iff]

/-- What histories show of the newest commit of a state: `commit`, in that state
and at its place in every history of a later one. -/
structure Shows (lib : JsonLibrary) (db : Database) (commit : CommitInfo) : Prop where
  newest : ∀ limit, limit ≠ 0 → ∃ history, getCommitHistory .runs limit db = .ok history db ∧
    history.head? = some commit
  kept : ∀ calls fate limit history after, getCommitHistory fate limit (run lib ⟨db, []⟩ calls).db =
    .ok history after → ∀ newer, newer + db.commits.length = (run lib ⟨db, []⟩ calls).db.commits.length →
    newer < history.length → history[newer]? = some commit

theorem shows_row {db : Database} {front : List CommitInfo} {row : CommitInfo}
    (h : db.commits = front ++ [row]) : Shows lib db row := by
  constructor
  · intro limit hlimit
    refine ⟨_, rfl, ?_⟩
    rw [limited_head hlimit, h]
    simp
  · intro calls fate limit history after hhistory newer hnewer hlt
    obtain ⟨_, n, rfl⟩ := getCommitHistory_ok hhistory
    obtain ⟨back, hback⟩ := run_commits_prefix lib ⟨db, []⟩ calls
    rw [← hback] at hlt hnewer ⊢
    have hlength : newer = back.length := by
      simp only [List.length_append] at hnewer
      omega
    subst hlength
    have hn : back.length < n := by
      simp only [List.length_take] at hlt
      omega
    rw [List.getElem?_take_of_lt hn, h]
    simp

theorem Shows.unique {db : Database} {commit commit' : CommitInfo} (h : Shows lib db commit)
    (h' : Shows lib db commit') : commit = commit' := by
  obtain ⟨history, hhistory, hhead⟩ := h.newest (-1) (by decide)
  obtain ⟨history', hhistory', hhead'⟩ := h'.newest (-1) (by decide)
  rw [hhistory] at hhistory'
  cases hhistory'
  exact Option.some.inj (hhead.symm.trans hhead')

/-- Histories show a commit as its call returned it unless the author or the
message has a zero byte. -/
theorem returned_shows_iff (lib : JsonLibrary) (calls : List ArchiveCall) {fates : CommitFates}
    {req : CommitRequest} {commit : CommitInfo} {db : Database}
    (h : req.run lib fates (run lib {} calls).db = .ok commit db) :
    Shows lib db commit ↔ Char.ofNat 0 ∉ req.author.toList ∧ Char.ofNat 0 ∉ req.message.toList := by
  obtain ⟨text, rfl, rfl⟩ := (commitConfig_cases lib fates req (run lib {} calls).db).of_ok h
  rw [← (idsWhole_run lib calls).row_eq_iff req fates.head text]
  have hrow : Shows lib ((run lib {} calls).db.withCommit
      (req.commit fates.head text (run lib {} calls).db) text) _ := shows_row rfl
  constructor
  · exact hrow.unique
  · intro he
    rwa [he] at hrow

def requestBy (author : String) : CommitRequest := ⟨0, author, "first try", noRules⟩

theorem returned_shows_iff_operator : ∃ commit db,
    (requestBy "operator").run (.plain [noRules]) ⟨.runs, .runs, .runs⟩ {} = .ok commit db ∧
      (Shows (.plain [noRules]) db commit ↔ Char.ofNat 0 ∉ "operator".toList ∧
        Char.ofNat 0 ∉ "first try".toList) :=
  ⟨_, _, rfl, @returned_shows_iff (.plain [noRules]) [] ⟨.runs, .runs, .runs⟩
    (requestBy "operator") _ _ rfl⟩

/-- The call returns the author with its zero byte, the history a shorter one. -/
theorem returned_not_shown : ∃ commit db history,
    (requestBy "op\x00erator").run (.plain [noRules]) ⟨.runs, .runs, .runs⟩ {} = .ok commit db ∧
      getCommitHistory .runs 50 db = .ok history db ∧ commit.author = "op\x00erator" ∧
      history.head?.map CommitInfo.author = some "op" ∧ ¬ Shows (.plain [noRules]) db commit := by
  refine ⟨_, _, _, rfl, rfl, rfl, by decide, ?_⟩
  intro h
  obtain ⟨history, hhistory, hhead⟩ := h.newest 50 (by decide)
  cases hhistory
  have hauthor := congrArg (Option.map CommitInfo.author) hhead
  revert hauthor
  decide

end ArchiveRun

end Openaslc
