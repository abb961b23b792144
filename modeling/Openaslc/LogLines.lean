import Openaslc.GraphicText
import Openaslc.Lines
import Openaslc.LogRotation

/-! What the log file tells about the calls that filled it, read line by line. -/

namespace Openaslc

/-- What `log` leaves in the slots for one call after another. -/
def storedEntries (slots : Nat → LogEntry) (calls : List LogCall) : List LogEntry :=
  calls.mapIdx fun i call => (slots i).fill call

/-- The text that `write_entries` appends for them. -/
def writtenText (slots : Nat → LogEntry) (calls : List LogCall) : String :=
  logText ((storedEntries slots calls).map LogEntry.record)

/-! ### Reading a line -/

structure LogLine where
  timestamp : String
  level : LogLevel
  message : String
  deriving DecidableEq

def LogRecord.shown (record : LogRecord) : LogLine :=
  ⟨formatTimestamp record.timestamp, record.level, record.text⟩

def parseLevel (name : List Char) : Option LogLevel :=
  [LogLevel.info, .warn, .error].find? fun level => (levelName level).toList = name

/-- The time stamp ends at the first blank, and the level at the first bracket
behind it. -/
def parseLine (line : List Char) : Option LogLine :=
  match line.dropWhile (· ≠ ' ') with
  | ' ' :: '[' :: rest =>
    match parseLevel (rest.takeWhile (· ≠ ']')), rest.dropWhile (· ≠ ']') with
    | some level, ']' :: ' ' :: message =>
      some ⟨String.ofList (line.takeWhile (· ≠ ' ')), level, String.ofList message⟩
    | _, _ => none
  | _ => none

/-- The text has one line for each call, from which the call is read back. -/
def LinesReadBack (slots : Nat → LogEntry) (calls : List LogCall) : Prop :=
  ∃ lines, (writtenText slots calls).toList.splitOn '\n' = lines ++ [[]] ∧
    lines.map parseLine = calls.map fun call => some call.record.shown

/-- Besides, no other calls are written in the same way. -/
structure LogLegible (slots : Nat → LogEntry) (calls : List LogCall) : Prop where
  lines : LinesReadBack slots calls
  unique : ∀ slots' calls', writtenText slots' calls' = writtenText slots calls →
    calls'.map (fun call => call.record.shown) = calls.map fun call => call.record.shown

/-! ### Lines and records -/

def LogRecord.header (record : LogRecord) : List Char :=
  (formatTimestamp record.timestamp).toList ++
    ' ' :: '[' :: ((levelName record.level).toList ++ [']', ' '])

theorem LogRecord.toList_line (record : LogRecord) :
    record.line.toList = record.header ++ record.text.toList ++ ['\n'] := by
  have hopen : " [".toList = [' ', '['] := rfl
  have hclose : "] ".toList = [']', ' '] := rfl
  have hend : "\n".toList = ['\n'] := rfl
  simp [LogRecord.line, header, String.toList_append, hopen, hclose, hend]

theorem levelName_graphic (level : LogLevel) :
    ∀ c ∈ (levelName level).toList, GraphicChar c ∧ c ≠ ']' := by
  cases level <;> simp [levelName, GraphicChar]

theorem LogRecord.newline_notMem_header (record : LogRecord) : '\n' ∉ record.header := by
  have hstamp : '\n' ∉ (formatTimestamp record.timestamp).toList :=
    (currentTimestamp_graphic record.timestamp).notMem (by decide)
  have hlevel : '\n' ∉ (levelName record.level).toList := fun h =>
    absurd (levelName_graphic record.level _ h).1 (by decide)
  simp [header, hstamp, hlevel]

theorem parseLevel_levelName (level : LogLevel) :
    parseLevel (levelName level).toList = some level := by
  cases level <;> decide

theorem takeWhile_dropWhile_field {sep : Char} {field : List Char} (h : sep ∉ field)
    (rest : List Char) : (field ++ sep :: rest).takeWhile (· ≠ sep) = field ∧
      (field ++ sep :: rest).dropWhile (· ≠ sep) = sep :: rest := by
  have hne : ∀ c ∈ field, decide (c ≠ sep) = true := fun c hc =>
    decide_eq_true fun he => h (he ▸ hc)
  rw [List.takeWhile_append_of_pos hne, List.dropWhile_append_of_pos hne]
  simp

theorem parseLine_header (record : LogRecord) (message : List Char) :
    parseLine (record.header ++ message) =
      some ⟨formatTimestamp record.timestamp, record.level, String.ofList message⟩ := by
  have hstamp : ' ' ∉ (formatTimestamp record.timestamp).toList :=
    (currentTimestamp_graphic record.timestamp).notMem (by decide)
  have hlevel : ']' ∉ (levelName record.level).toList := fun h =>
    (levelName_graphic record.level _ h).2 rfl
  have hline : record.header ++ message = (formatTimestamp record.timestamp).toList ++
      ' ' :: '[' :: ((levelName record.level).toList ++ ']' :: ' ' :: message) := by
    simp [LogRecord.header]
  obtain ⟨htake, hdrop⟩ := takeWhile_dropWhile_field hstamp
    ('[' :: ((levelName record.level).toList ++ ']' :: ' ' :: message))
  obtain ⟨htake', hdrop'⟩ := takeWhile_dropWhile_field hlevel (' ' :: message)
  rw [hline, parseLine, hdrop, htake]
  simp only [htake', hdrop', parseLevel_levelName, String.ofList_toList]

theorem mem_of_parseLine {line : List Char} {shown : LogLine} (h : parseLine line = some shown) :
    ∀ c ∈ shown.message.toList, c ∈ line := by
  rw [parseLine] at h
  split at h
  · next rest hdrop =>
    split at h
    · next level message _ hmessage =>
      have hrest : (' ' :: '[' :: rest) <:+ line := hdrop ▸ List.dropWhile_suffix _
      have htail : (']' :: ' ' :: message) <:+ rest := hmessage ▸ List.dropWhile_suffix _
      cases h
      intro c hc
      rw [String.toList_ofList] at hc
      have hin : c ∈ rest := htail.subset (List.mem_cons_of_mem _ (List.mem_cons_of_mem _ hc))
      exact hrest.subset (List.mem_cons_of_mem _ (List.mem_cons_of_mem _ hin))
    · cases h
  · cases h

theorem writtenText_eq (slots : Nat → LogEntry) (calls : List LogCall) :
    writtenText slots calls = logText (calls.map LogCall.record) := by
  have hrecords : (storedEntries slots calls).map LogEntry.record = calls.map LogCall.record := by
    apply List.ext_getElem
    · simp [storedEntries]
    · intro i hi hi'
      simp [storedEntries, record_fill]
  rw [writtenText, hrecords]

theorem LogCall.length_record_le (call : LogCall) :
    call.record.text.toList.length ≤ kMaxMessageLen := by
  rw [LogCall.record, String.toList_ofList]
  exact List.length_take_le _ _

theorem toList_logText (records : List LogRecord) : (logText records).toList =
    Lines.text '\n' (records.map fun r => r.header ++ r.text.toList) := by
  induction records with
  | nil => rfl
  | cons r records ih =>
    have hfirst : logText (r :: records) = r.line ++ logText records := rfl
    rw [hfirst, String.toList_append, ih, LogRecord.toList_line]
    rfl

theorem splitOn_logText (records : List LogRecord) : (logText records).toList.splitOn '\n' =
    records.flatMap (fun r => (r.header ++ r.text.toList).splitOn '\n') ++ [[]] := by
  rw [toList_logText, Lines.splitOn_text, List.flatMap_map]

/-! ### The lines of a text -/

theorem splitOn_of_free {records : List LogRecord} (hfree : ∀ r ∈ records, '\n' ∉ r.text.toList) :
    records.flatMap (fun r => (r.header ++ r.text.toList).splitOn '\n') =
      records.map fun r => r.header ++ r.text.toList := by
  induction records with
  | nil => rfl
  | cons r records ih =>
    have hbody : '\n' ∉ r.header ++ r.text.toList := fun h =>
      (List.mem_append.mp h).elim r.newline_notMem_header (hfree r List.mem_cons_self)
    rw [List.flatMap_cons, List.splitOn_eq_singleton hbody,
      ih fun s hs => hfree s (List.mem_cons_of_mem r hs)]
    rfl

/-- Lines that are too long to be merged come from one record each. -/
theorem shown_eq_of_splitOn_eq {records others : List LogRecord}
    (hlen : ∀ r ∈ others, r.text.toList.length ≤ kMaxMessageLen)
    (hchain : records.IsChain fun r s => kMaxMessageLen < r.text.length + s.line.length)
    (h : others.flatMap (fun r => (r.header ++ r.text.toList).splitOn '\n') =
      records.map fun r => r.header ++ r.text.toList) :
    others.map LogRecord.shown = records.map LogRecord.shown := by
  induction others generalizing records with
  | nil =>
    obtain rfl := List.map_eq_nil_iff.mp h.symm
    rfl
  | cons o others ih =>
    obtain ⟨first, more, hsplit⟩ :=
      List.exists_cons_of_ne_nil (List.splitOn_ne_nil '\n' o.text.toList)
    rw [List.flatMap_cons, Lines.splitOn_append o.newline_notMem_header hsplit] at h
    cases records with
    | nil => cases h
    | cons r records =>
      obtain ⟨hfirst, hrest⟩ := List.cons_eq_cons.mp h
      have hparse := congrArg parseLine hfirst
      rw [parseLine_header, parseLine_header, String.ofList_toList, Option.some.injEq,
        LogLine.mk.injEq] at hparse
      obtain ⟨hstamp, hlevel, hmessage⟩ := hparse
      have hshort := hlen o List.mem_cons_self
      cases more with
      | nil =>
        have htext : o.text = r.text := by
          have hwhole : ['\n'].intercalate (o.text.toList.splitOn '\n') = o.text.toList :=
            List.intercalate_splitOn '\n'
          rw [hsplit, List.intercalate_singleton] at hwhole
          rw [← hmessage, hwhole, String.ofList_toList]
        have hshown : o.shown = r.shown := by
          rw [LogRecord.shown, LogRecord.shown, hstamp, hlevel, htext]
        rw [List.map_cons, List.map_cons, hshown,
          ih (fun p hp => hlen p (List.mem_cons_of_mem o hp)) (List.isChain_of_isChain_cons hchain) hrest]
      | cons second more =>
        -- the record would hold two lines of the text, which do not fit
        cases records with
        | nil => cases hrest
        | cons s records =>
          obtain ⟨hsecond, _⟩ := List.cons_eq_cons.mp hrest
          have hlong := (List.isChain_cons_cons.mp hchain).1
          have hboth := Lines.length_lt_of_splitOn hsplit
          have hr : r.text.length = first.length := by
            rw [← hmessage, String.length_ofList]
          have hs : s.line.length = second.length + 1 := by
            rw [← String.length_toList, s.toList_line, hsecond, List.length_append]
            rfl
          omega

theorem writtenText_splitOn (slots : Nat → LogEntry) {calls : List LogCall}
    (hfree : ∀ call ∈ calls, '\n' ∉ call.record.text.toList) :
    (writtenText slots calls).toList.splitOn '\n' =
      (calls.map LogCall.record).map (fun r => r.header ++ r.text.toList) ++ [[]] := by
  have hrecords : ∀ r ∈ calls.map LogCall.record, '\n' ∉ r.text.toList := by
    simpa using hfree
  rw [writtenText_eq, splitOn_logText, splitOn_of_free hrecords]

theorem linesReadBack_iff (slots : Nat → LogEntry) (calls : List LogCall) :
    LinesReadBack slots calls ↔ ∀ call ∈ calls, '\n' ∉ call.record.text.toList := by
  constructor
  · intro h call hcall hc
    obtain ⟨lines, hsplit, hparse⟩ := h
    have hmem : some call.record.shown ∈ lines.map parseLine := by
      rw [hparse]
      exact List.mem_map_of_mem hcall
    obtain ⟨line, hline, hshown⟩ := List.mem_map.mp hmem
    have hfree : '\n' ∉ line := by
      apply Lines.notMem_of_mem_splitOn (l := (writtenText slots calls).toList)
      rw [hsplit]
      exact List.mem_append_left _ hline
    exact hfree (mem_of_parseLine hshown '\n' hc)
  · intro hfree
    have hparse : ∀ r : LogRecord, parseLine (r.header ++ r.text.toList) = some r.shown :=
      fun r => by rw [parseLine_header, String.ofList_toList, LogRecord.shown]
    refine ⟨_, writtenText_splitOn slots hfree, ?_⟩
    simp only [List.map_map, Function.comp_def, hparse]

/-- One call whose message holds the line of another. -/
def mergedCall (first second : LogCall) : LogCall where
  now := first.now
  level := first.level
  message := String.ofList
    (first.record.text.toList ++ '\n' :: (second.record.header ++ second.record.text.toList))

theorem mergedCall_text {first second : LogCall}
    (h : first.record.text.length + second.record.line.length ≤ kMaxMessageLen) :
    (mergedCall first second).record.text.toList = first.record.text.toList ++
      '\n' :: (second.record.header ++ second.record.text.toList) := by
  rw [← String.length_toList, ← String.length_toList, LogRecord.toList_line] at h
  rw [LogCall.record, mergedCall, String.toList_ofList, String.toList_ofList]
  apply List.take_of_length_le
  simp only [List.length_append, List.length_cons, List.length_nil] at h ⊢
  omega

theorem mergedCall_line {first second : LogCall}
    (h : first.record.text.length + second.record.line.length ≤ kMaxMessageLen) :
    (mergedCall first second).record.line = first.record.line ++ second.record.line := by
  have hstamp : ∀ call : LogCall, call.record.timestamp = call.now := fun _ => rfl
  have hlevel : ∀ call : LogCall, call.record.level = call.level := fun _ => rfl
  have hheader : (mergedCall first second).record.header = first.record.header := by
    rw [LogRecord.header, LogRecord.header, hstamp, hlevel, hstamp, hlevel, mergedCall]
  apply String.toList_inj.mp
  rw [String.toList_append, LogRecord.toList_line, LogRecord.toList_line, LogRecord.toList_line,
    mergedCall_text h, hheader]
  simp only [List.append_assoc, List.cons_append, List.nil_append]

/-- The log can be read exactly when no message breaks a line, and no entry
leaves room in one message for the next entry's line. -/
theorem logLegible_iff (slots : Nat → LogEntry) (calls : List LogCall) :
    LogLegible slots calls ↔ (∀ call ∈ calls, '\n' ∉ call.record.text.toList) ∧
      calls.IsChain fun first second =>
        kMaxMessageLen < first.record.text.length + second.record.line.length := by
  constructor
  · intro h
    refine ⟨(linesReadBack_iff slots calls).mp h.lines, ?_⟩
    rw [List.isChain_iff_forall_rel_of_append_cons_cons]
    intro first second l r hcalls
    by_contra hfits
    have htext : writtenText slots (l ++ mergedCall first second :: r) = writtenText slots calls := by
      have hline := mergedCall_line (Nat.not_lt.mp hfits)
      rw [writtenText_eq, writtenText_eq, hcalls]
      simp [logText, hline, String.append_assoc]
    have hlength := congrArg List.length (h.unique slots _ htext)
    rw [hcalls] at hlength
    simp at hlength
  · rintro ⟨hfree, hchain⟩
    refine ⟨(linesReadBack_iff slots calls).mpr hfree, ?_⟩
    intro slots' calls' h
    have hsplit := writtenText_splitOn slots hfree
    rw [← h, writtenText_eq, splitOn_logText] at hsplit
    have hlen : ∀ r ∈ calls'.map LogCall.record, r.text.toList.length ≤ kMaxMessageLen := by
      intro r hr
      obtain ⟨call, _, rfl⟩ := List.mem_map.mp hr
      exact call.length_record_le
    have hshown := shown_eq_of_splitOn_eq hlen ((List.isChain_map LogCall.record).mpr hchain)
      (List.append_cancel_right hsplit)
    simpa only [List.map_map, Function.comp_def] using hshown

/-- The author's name ends the line and brings another one. -/
def forgingCall : LogCall where
  now := 0
  level := .info
  message := "deploy: commit 01234567 by eve\n1970-01-01T00:00:00.000Z [INFO] " ++
    "deploy: commit 89abcdef by bob (1 rules)"

theorem logLegible_fails : ¬ ∀ slots calls, LogLegible slots calls := by
  intro h
  have hlegible := h (fun _ => ⟨0, .info, Vector.replicate kMaxMessageLen ' ', 0⟩) [forgingCall]
  apply (linesReadBack_iff _ _).mp hlegible.lines forgingCall List.mem_cons_self
  rw [LogCall.record, String.toList_ofList]
  decide

end Openaslc
