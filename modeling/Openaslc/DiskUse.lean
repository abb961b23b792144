import Openaslc.LogRotation

/-! What the log takes up on disk: the live file and the backups under their
limits, after every call of a run. -/

namespace Openaslc

open FileSystem

def WriteCall.size (call : WriteCall) : Nat := (logText (call.entries.map LogEntry.record)).length

namespace LogTarget

variable {t : LogTarget} {dir : Directory String String}

/-- No longer than a file under the limit and the batch that brings it there. -/
def Fits (t : LogTarget) (call : WriteCall) (file : String) : Prop :=
  if t.maxFileBytes = 0 then file.length = call.size
  else file.length < t.maxFileBytes.toNat + call.size

/-- The disk use that the parameters promise, for the directory that `calls` leave. -/
structure DiskBounded (t : LogTarget) (dir : Directory String String) (calls : List WriteCall) :
    Prop where
  live : ∀ file, t.run dir calls t.logPath = some file → file.length < t.maxFileBytes.toNat
  count : {i | 1 ≤ i ∧ (t.run dir calls (t.backup i)).isSome}.encard ≤ t.maxBackups.toInt.toNat
  backups : ∀ i file, 1 ≤ i → t.run dir calls (t.backup i) = some file →
    ∃ prior call rest, calls = prior ++ call :: rest ∧
      file ∈ t.rotatedFile call (t.run dir prior) ∧ t.Fits call file

/-! ### The live file -/

def LiveFits (t : LogTarget) (dir : Directory String String) : Prop :=
  ∀ file, dir t.logPath = some file → file.length < t.maxFileBytes.toNat

theorem LiveFits.writeEntries (h : t.LiveFits dir) {call : WriteCall}
    (hrenames : ∀ i, call.renames i = true) : t.LiveFits (t.writeEntries call dir) := by
  rw [LogTarget.writeEntries]
  split
  · exact h
  intro file hfile
  rw [rotateIfNeeded] at hfile
  cases hlive : t.appended call dir t.logPath with
  | none =>
    simp only [hlive] at hfile
    cases hfile
  | some contents =>
    simp only [hlive] at hfile
    by_cases hsmall : contents.length < t.maxFileBytes.toNat
    · rw [if_pos hsmall, hlive] at hfile
      cases hfile
      exact hsmall
    · rw [if_neg hsmall, rotate_live t.backup_ne hrenames _ (by simp [hlive])] at hfile
      cases hfile

theorem LiveFits.run (h : t.LiveFits dir) {calls : List WriteCall}
    (hrenames : ∀ call ∈ calls, ∀ i, call.renames i = true) : t.LiveFits (t.run dir calls) := by
  induction calls generalizing dir with
  | nil => exact h
  | cons call rest ih =>
    have hfirst := hrenames call List.mem_cons_self
    exact ih (h.writeEntries hfirst) fun c hc => hrenames c (List.mem_cons_of_mem call hc)

theorem LiveFits.fits (h : t.LiveFits dir) {call : WriteCall} {file : String}
    (hsize : file.length = ((dir t.logPath).getD "").length + call.size) : t.Fits call file := by
  by_cases hzero : t.maxFileBytes = 0
  · have hnone : dir t.logPath = none := by
      cases hlive : dir t.logPath with
      | none => rfl
      | some contents =>
        have hshort := h contents hlive
        rw [hzero] at hshort
        cases hshort
    rw [hnone] at hsize
    rw [Fits, if_pos hzero, hsize]
    exact Nat.zero_add _
  · have hpos : t.maxFileBytes.toNat ≠ 0 := fun hmax => hzero (UInt64.toNat_inj.mp hmax)
    have hbefore : ((dir t.logPath).getD "").length < t.maxFileBytes.toNat := by
      cases hlive : dir t.logPath with
      | none => exact Nat.pos_of_ne_zero hpos
      | some contents => exact h contents hlive
    rw [Fits, if_neg hzero]
    omega

/-- A file is rotated by a call that wrote to it. -/
theorem LiveFits.rotatedFile (h : t.LiveFits dir) {call : WriteCall} {file : String}
    (hfile : file ∈ t.rotatedFile call dir) :
    call.written ≠ [] ∧ file = (dir t.logPath).getD "" ++ logText call.written ∧
      t.maxFileBytes.toNat ≤ file.length ∧ t.Fits call file := by
  rw [LogTarget.rotatedFile] at hfile
  cases hentries : call.entries.isEmpty with
  | true => simp [hentries] at hfile
  | false =>
    cases hopens : call.opens with
    | false =>
      -- nothing was appended, and the file was too short before
      simp only [hentries, LogTarget.appended, hopens, Bool.false_eq_true, if_false] at hfile
      cases hlive : dir t.logPath with
      | none => simp [hlive] at hfile
      | some contents =>
        rw [hlive] at hfile
        simp [h contents hlive] at hfile
    | true =>
      have hwritten : call.written = call.entries.map LogEntry.record := if_pos hopens
      have hne : call.written ≠ [] := by
        rw [hwritten]
        simpa using hentries
      simp only [hentries, LogTarget.appended, hopens, if_true, Function.update_self,
        Bool.false_eq_true, if_false, ← hwritten] at hfile
      have hlarge : t.maxFileBytes.toNat ≤
          ((dir t.logPath).getD "" ++ logText call.written).length := by
        by_contra hsmall
        rw [if_pos (Nat.not_le.mp hsmall)] at hfile
        cases hfile
      rw [if_neg (Nat.not_lt.mpr hlarge), List.mem_singleton] at hfile
      have hsize : file.length = ((dir t.logPath).getD "").length + call.size := by
        rw [hfile, String.length_append, hwritten, WriteCall.size]
      exact ⟨hne, hfile, hfile ▸ hlarge, h.fits hsize⟩

/-! ### The backups -/

theorem mem_rotatedFiles {calls : List WriteCall} {file : String}
    (h : file ∈ t.rotatedFiles dir calls) :
    ∃ prior call rest, calls = prior ++ call :: rest ∧
      file ∈ t.rotatedFile call (t.run dir prior) := by
  induction calls generalizing dir with
  | nil => cases h
  | cons call calls ih =>
    rcases List.mem_append.mp h with h | h
    · exact ⟨[], call, calls, rfl, h⟩
    · obtain ⟨prior, other, rest, hcalls, hfile⟩ := ih h
      exact ⟨call :: prior, other, rest, by rw [hcalls, List.cons_append], hfile⟩

theorem rotatedFiles_append (calls rest : List WriteCall) : t.rotatedFiles dir (calls ++ rest) =
    t.rotatedFiles dir calls ++ t.rotatedFiles (t.run dir calls) rest := by
  induction calls generalizing dir with
  | nil => rfl
  | cons call calls ih => rw [List.cons_append, rotatedFiles, ih, rotatedFiles, List.append_assoc]; rfl

theorem Keeps.liveFits (h : t.Keeps dir [] []) : t.LiveFits dir := by
  intro file hfile
  rw [h.live] at hfile
  cases hfile

/-- Whether a run has rotated the file at all depends on how much it has written. -/
theorem Keeps.rotatedFiles_eq_nil_iff (h : t.Keeps dir [] []) {calls : List WriteCall}
    (hrenames : ∀ call ∈ calls, ∀ i, call.renames i = true) :
    t.rotatedFiles dir calls = [] ↔ calls.flatMap WriteCall.written = [] ∨
      (logText (calls.flatMap WriteCall.written)).length < t.maxFileBytes.toNat := by
  constructor
  · intro hnone
    obtain ⟨rotated, current, hkeeps, hall, hfiles⟩ := h.run hrenames
    rw [hnone, List.map_nil, List.nil_append, List.map_eq_nil_iff] at hfiles
    subst hfiles
    rw [List.flatten_nil, List.nil_append, List.nil_append, List.nil_append] at hall
    cases hempty : current.isEmpty with
    | true => exact Or.inl (hall ▸ List.isEmpty_iff.mp hempty)
    | false =>
      have hlive := hkeeps.live
      rw [hempty] at hlive
      exact Or.inr (hall ▸ h.liveFits.run hrenames _ hlive)
  · intro hsmall
    by_contra hne
    obtain ⟨file, hfile⟩ := List.exists_mem_of_ne_nil _ hne
    obtain ⟨prior, call, rest, rfl, hrotated⟩ := mem_rotatedFiles hfile
    have hprior : ∀ c ∈ prior, ∀ i, c.renames i = true :=
      fun c hc => hrenames c (List.mem_append_left _ hc)
    obtain ⟨hwritten, htext, hlarge, _⟩ := (h.liveFits.run hprior).rotatedFile hrotated
    obtain ⟨rotated, current, hkeeps, hall, _⟩ := h.run hprior
    rcases hsmall with hnil | hsmall
    · rw [List.flatMap_append, List.flatMap_cons, List.append_eq_nil_iff,
        List.append_eq_nil_iff] at hnil
      exact hwritten hnil.2.1
    · -- what the file held before the call is some of what was written before it
      rw [htext, hkeeps.getD_live, String.length_append] at hlarge
      rw [List.flatten_nil, List.nil_append, List.nil_append] at hall
      rw [List.flatMap_append, List.flatMap_cons, ← hall, logText_append, logText_append,
        logText_append, String.length_append, String.length_append, String.length_append] at hsmall
      omega

theorem Keeps.diskBounded (h : t.Keeps dir [] []) {calls : List WriteCall}
    (hrenames : ∀ call ∈ calls, ∀ i, call.renames i = true)
    (hroom : min (t.rotatedFiles dir calls).length t.capacity ≤ t.maxBackups.toInt.toNat) :
    t.DiskBounded dir calls := by
  obtain ⟨rotated, current, hkeeps, _, hfiles⟩ := h.run hrenames
  rw [List.map_nil, List.nil_append] at hfiles
  refine ⟨h.liveFits.run hrenames, ?_, ?_⟩
  · have hset : {i | 1 ≤ i ∧ (t.run dir calls (t.backup i)).isSome} =
        Set.Icc 1 (min rotated.length t.capacity) := by
      ext i
      exact and_congr_right fun hi => hkeeps.backup_isSome hi
    rw [← hfiles, List.length_map] at hroom
    rw [hset, ← Finset.coe_Icc, Set.encard_coe_eq_coe_finsetCard, Nat.card_Icc, Nat.add_sub_cancel]
    exact Nat.cast_le.mpr hroom
  · intro i file hi hfile
    obtain ⟨j, rfl⟩ : ∃ j, i = j + 1 := ⟨i - 1, by omega⟩
    rw [hkeeps.backups j] at hfile
    have hmem := List.mem_of_mem_take (List.mem_of_getElem? hfile)
    rw [List.mem_reverse, hfiles] at hmem
    obtain ⟨prior, call, rest, rfl, hrotated⟩ := mem_rotatedFiles hmem
    have hprior : ∀ c ∈ prior, ∀ i, c.renames i = true :=
      fun c hc => hrenames c (List.mem_append_left _ hc)
    exact ⟨prior, call, rest, rfl, hrotated, ((h.liveFits.run hprior).rotatedFile hrotated).2.2.2⟩

/-- The last rename makes a backup, whatever the parameter says. -/
theorem Keeps.not_diskBounded (h : t.Keeps dir [] []) {calls : List WriteCall}
    (hrenames : ∀ call ∈ calls, ∀ i, call.renames i = true)
    (hfull : t.rotatedFiles dir calls ≠ []) (hzero : t.maxBackups.toInt.toNat = 0) :
    ¬ t.DiskBounded dir calls := by
  intro hbounded
  have hcount := hbounded.count
  obtain ⟨rotated, current, hkeeps, _, hfiles⟩ := h.run hrenames
  rw [List.map_nil, List.nil_append] at hfiles
  have hpos : 1 ≤ rotated.length := by
    rw [← List.length_map logText, hfiles]
    exact List.length_pos_iff.mpr hfull
  have hone : (1 : Nat) ∈ {i | 1 ≤ i ∧ (t.run dir calls (t.backup i)).isSome} :=
    ⟨le_rfl, (hkeeps.backup_isSome le_rfl).mpr (le_min hpos (le_max_left _ _))⟩
  rw [hzero, Nat.cast_zero, nonpos_iff_eq_zero, Set.encard_eq_zero] at hcount
  rw [hcount] at hone
  exact hone

/-- The limits hold exactly when there is a backup to be had, or the run never
fills the live file. -/
theorem diskBounded_iff (t : LogTarget) (hmax : 0 ≤ t.maxBackups.toInt)
    {dir : Directory String String} (hlive : dir t.logPath = none)
    (hbackups : ∀ i, 1 ≤ i → dir (t.backup i) = none) {calls : List WriteCall}
    (hrenames : ∀ call ∈ calls, ∀ i, call.renames i = true) :
    (∀ k, t.DiskBounded dir (calls.take k)) ↔
      1 ≤ t.maxBackups.toInt ∨ calls.flatMap WriteCall.written = [] ∨
        (logText (calls.flatMap WriteCall.written)).length < t.maxFileBytes.toNat := by
  have hstart := Keeps.start hlive hbackups
  rw [← hstart.rotatedFiles_eq_nil_iff hrenames]
  constructor
  · intro h
    by_contra hneither
    obtain ⟨hbound, hfull⟩ := not_or.mp hneither
    have hwhole := h calls.length
    rw [List.take_length] at hwhole
    exact hstart.not_diskBounded hrenames hfull (by omega) hwhole
  · intro h k
    have htake : ∀ call ∈ calls.take k, ∀ i, call.renames i = true :=
      fun c hc => hrenames c (List.mem_of_mem_take hc)
    apply hstart.diskBounded htake
    rcases h with hroom | hnone
    · rw [capacity, max_eq_right (by omega)]
      exact min_le_right _ _
    · rw [← List.take_append_drop k calls, rotatedFiles_append, List.append_eq_nil_iff] at hnone
      rw [hnone.1]
      exact Nat.zero_le _

theorem diskBounded_iff_oneBackup :
    (∀ k, oneBackup.DiskBounded (fun _ => none) ([emptyMessage 0, emptyMessage 1].take k)) ↔
      1 ≤ oneBackup.maxBackups.toInt ∨
        [emptyMessage 0, emptyMessage 1].flatMap WriteCall.written = [] ∨
        (logText ([emptyMessage 0, emptyMessage 1].flatMap WriteCall.written)).length <
          oneBackup.maxFileBytes.toNat :=
  diskBounded_iff oneBackup (by decide) rfl (fun _ _ => rfl) (by simp [emptyMessage])

def noBackups : LogTarget := ⟨"openaslc.log", 0, 0⟩

/-- The first batch fills the file, which becomes a backup. -/
theorem diskBounded_fails : ¬ ∀ (t : LogTarget) (dir : Directory String String)
    (calls : List WriteCall), 0 ≤ t.maxBackups.toInt → dir t.logPath = none →
    (∀ i, 1 ≤ i → dir (t.backup i) = none) →
    (∀ call ∈ calls, ∀ i, call.renames i = true) → ∀ k, t.DiskBounded dir (calls.take k) := by
  intro h
  have hrenames : ∀ call ∈ [emptyMessage 0], ∀ i, call.renames i = true := by
    simp [emptyMessage]
  have hstart : noBackups.Keeps (fun _ => none) [] [] := ⟨fun _ => rfl, rfl⟩
  have hfull : noBackups.rotatedFiles (fun _ => none) [emptyMessage 0] ≠ [] := fun hnone => by
    rcases (hstart.rotatedFiles_eq_nil_iff hrenames).mp hnone with hnil | hshort
    · cases hnil
    · exact Nat.not_lt_zero _ hshort
  exact hstart.not_diskBounded hrenames hfull rfl
    (h noBackups _ [emptyMessage 0] le_rfl rfl (fun _ _ => rfl) hrenames 1)

end LogTarget

end Openaslc
