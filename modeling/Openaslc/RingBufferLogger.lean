import Openaslc.DeployHandler
import Openaslc.Ledger
import Openaslc.RingBuffer

/-! The logger's ring. The mutex makes a log call one step, and taking the
pending entries out another. -/

namespace Openaslc

def kCapacity : Nat := 1024

def kMaxMessageLen : Nat := 160

structure LogEntry where
  timestamp : Int
  level : LogLevel
  message : Vector Char kMaxMessageLen
  messageLen : Nat

/-- A call of `log` and its clock reading. -/
structure LogCall where
  now : Int
  level : LogLevel
  message : String

/-- A slot with a new entry; beyond the new message the old characters stay. -/
def LogEntry.fill (call : LogCall) (entry : LogEntry) : LogEntry where
  timestamp := call.now
  level := call.level
  message := Vector.ofFn fun i => call.message.toList[i.val]?.getD (entry.message.get i)
  messageLen := min call.message.length kMaxMessageLen

structure LogRecord where
  timestamp : Int
  level : LogLevel
  text : String
  deriving DecidableEq

def LogEntry.record (entry : LogEntry) : LogRecord :=
  ⟨entry.timestamp, entry.level, String.ofList (entry.message.toList.take entry.messageLen)⟩

def LogCall.record (call : LogCall) : LogRecord :=
  ⟨call.now, call.level, String.ofList (call.message.toList.take kMaxMessageLen)⟩

/-- The members that `mutex_` guards, and the drop counter. -/
structure RingBufferLogger where
  buffer : Vector LogEntry kCapacity
  head : Nat := 0
  count : Nat := 0
  dropped : UInt64 := 0

namespace RingBufferLogger

def log (s : RingBufferLogger) (call : LogCall) : RingBufferLogger where
  buffer := ⟨s.buffer.toArray.modify s.head (LogEntry.fill call), by simp⟩
  head := (s.head + 1) % kCapacity
  count := if s.count < kCapacity then s.count + 1 else s.count
  dropped := if s.count < kCapacity then s.dropped else s.dropped + 1

def slot (s : RingBufferLogger) (i : Nat) : LogEntry :=
  s.buffer.get ⟨i % kCapacity, Nat.mod_lt _ (by decide)⟩

def buffered (s : RingBufferLogger) : List LogEntry :=
  let start := (s.head + kCapacity - s.count) % kCapacity
  (List.range s.count).map fun i => s.slot (start + i)

/-- The part of `flush_pending` under the mutex. -/
def takePending (s : RingBufferLogger) : List LogEntry × RingBufferLogger :=
  if s.count = 0 then ([], s) else (s.buffered, { s with count := 0 })

end RingBufferLogger

theorem record_fill (call : LogCall) (entry : LogEntry) : (entry.fill call).record = call.record := by
  have htext : (entry.fill call).message.toList.take (entry.fill call).messageLen =
      call.message.toList.take kMaxMessageLen := by
    refine List.ext_getElem ?_ fun i hi hi' => ?_
    · simp [LogEntry.fill, Nat.min_comm, String.length_toList]
    · have hlt : i < call.message.toList.length := by
        rw [List.length_take] at hi'
        omega
      simp [LogEntry.fill, List.getElem?_eq_getElem hlt]
  rw [LogEntry.record, htext]
  rfl

namespace RingBufferLogger

structure Refines (s : RingBufferLogger) (r : RingBuffer LogEntry kCapacity) : Prop where
  buffer : s.buffer = r.slots
  head : s.head = r.head
  count : s.count = r.count

variable {s : RingBufferLogger} {r : RingBuffer LogEntry kCapacity}

theorem Refines.log (h : s.Refines r) (call : LogCall) :
    (s.log call).Refines (r.push (LogEntry.fill call)) := by
  obtain ⟨hbuffer, hhead, hcount⟩ := h
  have hhead' : (s.log call).head = (s.head + 1) % kCapacity := rfl
  have hcount' : (s.log call).count = if s.count < kCapacity then s.count + 1 else s.count := rfl
  refine ⟨?_, ?_, ?_⟩
  · ext i hi
    have hlog : (s.log call).buffer[i] =
        if s.head = i then s.buffer[i].fill call else s.buffer[i] :=
      Array.getElem_modify (by simpa using hi)
    rw [hlog, hhead, hbuffer]
    by_cases hi' : r.head = i
    · subst hi'
      have hget : r.get r.head = r.slots[r.head] := by
        simp [RingBuffer.get, Vector.get_eq_getElem, Nat.mod_eq_of_lt r.head_lt]
      simp [RingBuffer.push, hget]
    · rw [if_neg hi']
      simp [RingBuffer.push, hi']
  · rw [hhead', hhead]
    rfl
  · rw [hcount', hcount]
    rfl

theorem Refines.buffered (h : s.Refines r) : s.buffered = r.contents := by
  obtain ⟨hbuffer, hhead, hcount⟩ := h
  have hle := r.count_le
  have hsum : r.head + kCapacity - r.count = r.head + (kCapacity - r.count) := by omega
  rw [RingBufferLogger.buffered, RingBuffer.contents, hhead, hcount]
  refine List.map_congr_left fun i _ => ?_
  have hindex : ((r.head + kCapacity - r.count) % kCapacity + i) % kCapacity =
      r.position i % kCapacity := by
    rw [Nat.mod_add_mod, hsum, RingBuffer.position, Nat.mod_mod]
  simp only [slot, RingBuffer.get, hbuffer, hindex]

theorem Refines.takePending (h : s.Refines r) :
    s.takePending.1 = r.contents ∧ s.takePending.2.Refines r.clear ∧
      s.takePending.2.dropped = s.dropped := by
  have hbuffered := h.buffered
  unfold RingBufferLogger.takePending
  split
  · next hzero =>
    have hr : r.count = 0 := h.count ▸ hzero
    have hnil : r.contents = [] := List.length_eq_zero_iff.mp (r.length_contents.trans hr)
    exact ⟨hnil.symm, ⟨h.buffer, h.head, hzero⟩, rfl⟩
  · exact ⟨hbuffered, ⟨h.buffer, h.head, rfl⟩, rfl⟩

theorem length_takePending (s : RingBufferLogger) : s.takePending.1.length = s.count := by
  unfold RingBufferLogger.takePending
  split
  · next hzero => exact hzero.symm
  · simp [RingBufferLogger.buffered]

theorem count_log_ne_zero (s : RingBufferLogger) (call : LogCall) : (s.log call).count ≠ 0 := by
  have hpos : 0 < kCapacity := by decide
  show (if s.count < kCapacity then s.count + 1 else s.count) ≠ 0
  split
  · exact Nat.succ_ne_zero _
  · omega

theorem count_takePending (s : RingBufferLogger) : s.takePending.2.count = 0 := by
  unfold RingBufferLogger.takePending
  split
  · next hzero => exact hzero
  · rfl

end RingBufferLogger

end Openaslc
