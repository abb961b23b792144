import Openaslc.FileSystem
import Openaslc.RingBufferLogger
import Openaslc.StandardLibrary

/-! The log file and its backups. A batch is appended to the file, and a file
that has grown to the limit becomes backup number 1. -/

namespace Openaslc

open FileSystem

def levelName : LogLevel → String
  | .info => "INFO"
  | .warn => "WARN"
  | .error => "ERROR"

/-- The same text as `current_timestamp`, for a stored clock reading. -/
def formatTimestamp (timestamp : Int) : String := currentTimestamp timestamp

def LogRecord.line (record : LogRecord) : String :=
  formatTimestamp record.timestamp ++ " [" ++ levelName record.level ++ "] " ++ record.text ++ "\n"

def logText (records : List LogRecord) : String :=
  records.foldr (fun record text => record.line ++ text) ""

/-- The members that say where the log goes; a file is as long as its string. -/
structure LogTarget where
  logPath : String
  maxFileBytes : UInt64
  maxBackups : Int32

/-- A call of `write_entries`: whether the stream opens, and which renames
succeed, by the number that they rename to. -/
structure WriteCall where
  entries : List LogEntry
  opens : Bool
  renames : Nat → Bool

def WriteCall.written (call : WriteCall) : List LogRecord :=
  if call.opens then call.entries.map LogEntry.record else []

namespace LogTarget

def backup (t : LogTarget) (i : Nat) : String := t.logPath ++ "." ++ toString i

def rotateIfNeeded (t : LogTarget) (renames : Nat → Bool) (dir : Directory String String) :
    Directory String String :=
  match dir t.logPath with
  | none => dir
  | some contents =>
    if contents.length < t.maxFileBytes.toNat then dir
    else rename (renames 1) t.logPath (t.backup 1) (shift t.backup renames t.maxBackups.toInt.toNat dir)

def appended (t : LogTarget) (call : WriteCall) (dir : Directory String String) :
    Directory String String :=
  if call.opens then
    Function.update dir t.logPath
      (some ((dir t.logPath).getD "" ++ logText (call.entries.map LogEntry.record)))
  else dir

def writeEntries (t : LogTarget) (call : WriteCall) (dir : Directory String String) :
    Directory String String :=
  if call.entries.isEmpty then dir else t.rotateIfNeeded call.renames (t.appended call dir)

def run (t : LogTarget) (dir : Directory String String) (calls : List WriteCall) :
    Directory String String :=
  calls.foldl (fun dir call => t.writeEntries call dir) dir

def rotatedFile (t : LogTarget) (call : WriteCall) (dir : Directory String String) : List String :=
  if call.entries.isEmpty then [] else
    match t.appended call dir t.logPath with
    | none => []
    | some contents => if contents.length < t.maxFileBytes.toNat then [] else [contents]

def rotatedFiles (t : LogTarget) : Directory String String → List WriteCall → List String
  | _, [] => []
  | dir, call :: rest => t.rotatedFile call dir ++ rotatedFiles t (t.writeEntries call dir) rest

theorem backup_injective (t : LogTarget) : Function.Injective t.backup := by
  intro i j h
  have hdigits : Nat.toDigits 10 i = Nat.toDigits 10 j := by
    have hlist := congrArg String.toList h
    simpa [backup, String.toList_append, Nat.toList_repr] using hlist
  have hvalue := congrArg (fun digits => Nat.ofDigitChars 10 digits 0) hdigits
  simpa using hvalue

theorem backup_ne (t : LogTarget) (i : Nat) : t.backup i ≠ t.logPath := by
  intro h
  have hlength := congrArg String.length h
  simp only [backup, String.length_append] at hlength
  have hdot : ".".length = 1 := rfl
  omega

end LogTarget

theorem logText_append (records rest : List LogRecord) :
    logText (records ++ rest) = logText records ++ logText rest := by
  induction records with
  | nil => simp [logText]
  | cons record records ih =>
    simp only [logText, List.cons_append, List.foldr_cons] at ih ⊢
    rw [ih, String.append_assoc]

theorem logText_flatten (files : List (List LogRecord)) :
    logText files.flatten = (files.map logText).foldr (· ++ ·) "" := by
  induction files with
  | nil => simp [logText]
  | cons file files ih => simp [logText_append, ih]

namespace LogTarget

variable {t : LogTarget} {dir : Directory String String}

def capacity (t : LogTarget) : Nat := max 1 t.maxBackups.toInt.toNat

theorem take_cons_take (x : String) (files : List String) :
    (x :: files.take t.capacity).take t.capacity = (x :: files).take t.capacity := by
  obtain ⟨c, hc⟩ : ∃ c, t.capacity = c + 1 := ⟨t.capacity - 1, by unfold capacity; omega⟩
  simp [hc, List.take_take]

/-- The backups hold the newest of the files rotated so far, and the live file
what was written since. -/
structure Keeps (t : LogTarget) (dir : Directory String String) (rotated : List (List LogRecord))
    (current : List LogRecord) : Prop where
  backups : Numbered t.backup dir ((rotated.map logText).reverse.take t.capacity)
  live : dir t.logPath = if current.isEmpty then none else some (logText current)

theorem Keeps.start (hlive : dir t.logPath = none)
    (hbackups : ∀ i, 1 ≤ i → dir (t.backup i) = none) : t.Keeps dir [] [] :=
  ⟨fun i => by simp [hbackups (i + 1) (by omega)], by simp [hlive]⟩

theorem Keeps.backup_isSome {rotated : List (List LogRecord)} {current : List LogRecord}
    (h : t.Keeps dir rotated current) {i : Nat} (hi : 1 ≤ i) :
    (dir (t.backup i)).isSome ↔ i ≤ min rotated.length t.capacity := by
  obtain ⟨j, rfl⟩ : ∃ j, i = j + 1 := ⟨i - 1, by omega⟩
  rw [h.backups j, Option.isSome_iff_ne_none, ne_eq, List.getElem?_eq_none_iff]
  simp only [List.length_take, List.length_reverse, List.length_map]
  omega

theorem Keeps.getD_live {rotated : List (List LogRecord)} {current : List LogRecord}
    (h : t.Keeps dir rotated current) : (dir t.logPath).getD "" = logText current := by
  rw [h.live]
  cases current <;> simp [logText]

theorem Keeps.appended {rotated : List (List LogRecord)} {current : List LogRecord}
    (h : t.Keeps dir rotated current) {call : WriteCall} (hentries : call.entries.isEmpty = false) :
    t.Keeps (t.appended call dir) rotated (current ++ call.written) := by
  unfold LogTarget.appended WriteCall.written
  split
  · constructor
    · intro i
      rw [Function.update_of_ne (t.backup_ne _)]
      exact h.backups i
    · have hne : (current ++ call.entries.map LogEntry.record).isEmpty = false := by
        simpa using fun _ => hentries
      rw [Function.update_self, h.getD_live, hne, logText_append]
      simp
  · simpa using h

theorem Keeps.rotateIfNeeded {rotated : List (List LogRecord)} {current : List LogRecord}
    (h : t.Keeps dir rotated current) {renames : Nat → Bool} (hrenames : ∀ i, renames i = true) :
    ∃ rotated' current', t.Keeps (t.rotateIfNeeded renames dir) rotated' current' ∧
      rotated'.flatten ++ current' = rotated.flatten ++ current ∧
      rotated'.map logText = rotated.map logText ++ (match dir t.logPath with
        | none => []
        | some contents => if contents.length < t.maxFileBytes.toNat then [] else [contents]) := by
  unfold LogTarget.rotateIfNeeded
  cases hlive : dir t.logPath with
  | none => exact ⟨rotated, current, h, rfl, by simp⟩
  | some contents =>
    by_cases hsmall : contents.length < t.maxFileBytes.toNat
    · simp only [if_pos hsmall]
      exact ⟨rotated, current, h, rfl, by simp⟩
    simp only [if_neg hsmall]
    have hcontents : contents = logText current := by
      have hboth := hlive.symm.trans h.live
      cases current with
      | nil => simp at hboth
      | cons first rest => simpa using hboth
    refine ⟨rotated ++ [current], [], ⟨?_, ?_⟩, by simp, by simp [hcontents]⟩
    · have hlen : ((rotated.map logText).reverse.take t.capacity).length ≤ t.capacity := by simp
      have hrotate := h.backups.rotate t.backup_injective t.backup_ne hrenames hlen hlive
      change Numbered _ _ (List.take t.capacity _) at hrotate
      rw [take_cons_take, hcontents] at hrotate
      simpa using hrotate
    · rw [rotate_live t.backup_ne hrenames _ (by simp [hlive])]
      simp

theorem Keeps.writeEntries {rotated : List (List LogRecord)} {current : List LogRecord}
    (h : t.Keeps dir rotated current) {call : WriteCall} (hrenames : ∀ i, call.renames i = true) :
    ∃ rotated' current', t.Keeps (t.writeEntries call dir) rotated' current' ∧
      rotated'.flatten ++ current' = rotated.flatten ++ current ++ call.written ∧
      rotated'.map logText = rotated.map logText ++ t.rotatedFile call dir := by
  unfold LogTarget.writeEntries rotatedFile
  cases hentries : call.entries.isEmpty with
  | true =>
    have hwritten : call.written = [] := by
      simp [WriteCall.written, List.isEmpty_iff.mp hentries]
    exact ⟨rotated, current, by simpa using h, by simp [hwritten], by simp⟩
  | false =>
    obtain ⟨rotated', current', hkeeps, hall, hfiles⟩ :=
      (h.appended hentries).rotateIfNeeded hrenames
    exact ⟨rotated', current', by simpa using hkeeps, by rw [hall, List.append_assoc],
      by simpa using hfiles⟩

theorem Keeps.run {rotated : List (List LogRecord)} {current : List LogRecord}
    (h : t.Keeps dir rotated current) {calls : List WriteCall}
    (hrenames : ∀ call ∈ calls, ∀ i, call.renames i = true) :
    ∃ rotated' current', t.Keeps (t.run dir calls) rotated' current' ∧
      rotated'.flatten ++ current' = rotated.flatten ++ current ++ calls.flatMap WriteCall.written ∧
      rotated'.map logText = rotated.map logText ++ t.rotatedFiles dir calls := by
  induction calls generalizing dir rotated current with
  | nil => exact ⟨rotated, current, h, by simp, by simp [rotatedFiles]⟩
  | cons call rest ih =>
    obtain ⟨rotated₁, current₁, hkeeps, hall, hfiles⟩ := h.writeEntries (hrenames call (by simp))
    obtain ⟨rotated₂, current₂, hkeeps₂, hall₂, hfiles₂⟩ :=
      ih hkeeps fun c hc => hrenames c (by simp [hc])
    refine ⟨rotated₂, current₂, hkeeps₂, ?_, ?_⟩
    · rw [hall₂, hall, List.flatMap_cons, List.append_assoc]
    · rw [hfiles₂, hfiles, rotatedFiles, List.append_assoc]

/-- Backup `k` and those after it, down to number 1, and the live file. -/
def contents (t : LogTarget) (dir : Directory String String) (k : Nat) : String :=
  ((List.range k).reverse.map fun i => (dir (t.backup (i + 1))).getD "").foldr (· ++ ·) "" ++
    (dir t.logPath).getD ""

theorem Keeps.contents {rotated : List (List LogRecord)} {current : List LogRecord}
    (h : t.Keeps dir rotated current) :
    t.contents dir (min rotated.length t.capacity) =
      logText ((rotated.drop (rotated.length - t.capacity)).flatten ++ current) := by
  have hfiles : (List.range (min rotated.length t.capacity)).map
      (fun i => (dir (t.backup (i + 1))).getD "") = (rotated.map logText).reverse.take t.capacity := by
    apply List.ext_getElem
    · simp [Nat.min_comm]
    · intro i hi hi'
      rw [List.getElem_map, List.getElem_range, h.backups i, List.getElem?_eq_getElem hi',
        Option.getD_some]
  rw [LogTarget.contents, List.map_reverse, hfiles, h.getD_live, logText_append, logText_flatten,
    List.take_reverse, List.reverse_reverse, List.map_drop, List.length_map]

/-- After every call the backups are numbered without a gap, and from the oldest
backup to the live file they hold what was written since the files that fell off. -/
theorem rotation_keeps_order (t : LogTarget) {dir : Directory String String}
    (hlive : dir t.logPath = none) (hbackups : ∀ i, 1 ≤ i → dir (t.backup i) = none)
    {calls : List WriteCall} (hrenames : ∀ call ∈ calls, ∀ i, call.renames i = true) :
    ∃ k gone rest, (∀ i, 1 ≤ i → ((t.run dir calls (t.backup i)).isSome ↔ i ≤ k)) ∧
      t.contents (t.run dir calls) k = logText rest ∧
      calls.flatMap WriteCall.written = gone.flatten ++ rest ∧
      gone.map logText = (t.rotatedFiles dir calls).take ((t.rotatedFiles dir calls).length - k) ∧
      (gone ≠ [] → k = t.capacity) := by
  obtain ⟨rotated, current, hkeeps, hall, hfiles⟩ := (Keeps.start hlive hbackups).run hrenames
  simp only [List.flatten_nil, List.nil_append, List.map_nil] at hall hfiles
  refine ⟨min rotated.length t.capacity, rotated.take (rotated.length - t.capacity), _, ?_,
    hkeeps.contents, ?_, ?_, ?_⟩
  · exact fun i hi => hkeeps.backup_isSome hi
  · rw [← hall, ← List.append_assoc, ← List.flatten_append, List.take_append_drop]
  · rw [← hfiles, List.length_map, List.map_take]
    congr 1
    omega
  · intro hgone
    have hlt : rotated.length - t.capacity ≠ 0 := by
      intro hzero
      simp [hzero] at hgone
    omega

def oneBackup : LogTarget := ⟨"openaslc.log", 0, 1⟩

def emptyMessage (timestamp : Int) : WriteCall where
  entries := [⟨timestamp, .info, Vector.replicate kMaxMessageLen ' ', 0⟩]
  opens := true
  renames := fun _ => true

theorem rotation_keeps_order_oneBackup : ∃ k gone rest,
    (∀ i, 1 ≤ i → ((oneBackup.run (fun _ => none) [emptyMessage 0, emptyMessage 1]
      (oneBackup.backup i)).isSome ↔ i ≤ k)) ∧
    oneBackup.contents (oneBackup.run (fun _ => none) [emptyMessage 0, emptyMessage 1]) k =
      logText rest ∧
    [emptyMessage 0, emptyMessage 1].flatMap WriteCall.written = gone.flatten ++ rest ∧
    gone.map logText = (oneBackup.rotatedFiles (fun _ => none) [emptyMessage 0, emptyMessage 1]).take
      ((oneBackup.rotatedFiles (fun _ => none) [emptyMessage 0, emptyMessage 1]).length - k) ∧
    (gone ≠ [] → k = oneBackup.capacity) :=
  rotation_keeps_order oneBackup rfl (fun _ _ => rfl) (by simp [emptyMessage])

end LogTarget

end Openaslc
