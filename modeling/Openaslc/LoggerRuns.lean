import Openaslc.RingBufferLogger

/-! Log calls of any threads and drains of the flushing thread, in any order:
what has become of every entry. -/

namespace Openaslc

inductive LoggerEvent (ι : Type)
  | log (thread : ι) (call : LogCall)
  | drain

/-- The logger, and the batches taken out so far, one after the other. -/
structure LoggerRun where
  logger : RingBufferLogger
  drained : List LogEntry := []

variable {ι : Type}

def logged (events : List (LoggerEvent ι)) : List LogRecord :=
  events.filterMap fun
    | .log _ call => some call.record
    | .drain => none

namespace LoggerRun

def step (r : LoggerRun) : LoggerEvent ι → LoggerRun
  | .log _ call => { r with logger := r.logger.log call }
  | .drain => ⟨r.logger.takePending.2, r.drained ++ r.logger.takePending.1⟩

/-- From a new logger, whose slots hold anything. -/
def run (slots : Vector LogEntry kCapacity) (events : List (LoggerEvent ι)) : LoggerRun :=
  events.foldl step ⟨{ buffer := slots }, []⟩

theorem run_concat (slots : Vector LogEntry kCapacity) (events : List (LoggerEvent ι))
    (e : LoggerEvent ι) : run slots (events ++ [e]) = (run slots events).step e := by
  rw [run, List.foldl_append]
  rfl

/-- Entry number `i` is the oldest one that is neither flushed nor removed: the
buffer holds the entries from there on. -/
def OldestUnflushed (r : LoggerRun) (records : List LogRecord) (i : Nat) : Prop :=
  i + r.logger.count = records.length ∧ r.logger.buffered.map LogEntry.record = records.drop i

/-- A log call found the buffer full when entry number `i` was its oldest. -/
def Overwrites (slots : Vector LogEntry kCapacity) (events : List (LoggerEvent ι)) (i : Nat) : Prop :=
  ∃ before thread call after, events = before ++ .log thread call :: after ∧
    (run slots before).logger.count = kCapacity ∧ (run slots before).OldestUnflushed (logged before) i

theorem overwrites_concat {slots : Vector LogEntry kCapacity} {events : List (LoggerEvent ι)}
    {e : LoggerEvent ι} {i : Nat} : Overwrites slots (events ++ [e]) i ↔ Overwrites slots events i ∨
      (∃ thread call, e = .log thread call) ∧ (run slots events).logger.count = kCapacity ∧
        (run slots events).OldestUnflushed (logged events) i := by
  constructor
  · rintro ⟨before, thread, call, after, heq, hfull, holdest⟩
    rcases List.eq_nil_or_concat after with rfl | ⟨after, x, rfl⟩
    · obtain ⟨rfl, hlast⟩ := List.append_inj' heq rfl
      obtain rfl := List.singleton_inj.mp hlast
      exact .inr ⟨⟨thread, call, rfl⟩, hfull, holdest⟩
    · rw [List.concat_eq_append, ← List.cons_append, ← List.append_assoc] at heq
      obtain ⟨rfl, _⟩ := List.append_inj' heq rfl
      exact .inl ⟨before, thread, call, after, rfl, hfull, holdest⟩
  · rintro (⟨before, thread, call, after, rfl, hfull, holdest⟩ | ⟨⟨thread, call, rfl⟩, hfull, holdest⟩)
    · exact ⟨before, thread, call, after ++ [e], by simp, hfull, holdest⟩
    · exact ⟨events, thread, call, [], rfl, hfull, holdest⟩

/-- The ring holds what still waits by the ledger, and the batches are what it
passed on. -/
structure Balances (r : LoggerRun) (g : Ledger LogRecord) (ring : RingBuffer LogEntry kCapacity) :
    Prop where
  refines : r.logger.Refines ring
  out : r.drained.map LogEntry.record = g.out
  waiting : ring.contents.map LogEntry.record = g.waiting
  dropped : r.logger.dropped = UInt64.ofNat g.removed.length

variable {r : LoggerRun} {g : Ledger LogRecord} {ring : RingBuffer LogEntry kCapacity}

theorem Balances.buffered (h : Balances r g ring) :
    r.logger.buffered.map LogEntry.record = g.waiting := by
  rw [h.refines.buffered, h.waiting]

theorem Balances.length_waiting (h : Balances r g ring) : g.waiting.length = r.logger.count := by
  rw [← h.waiting, List.length_map, RingBuffer.length_contents, h.refines.count]

theorem Balances.oldestUnflushed (h : Balances r g ring) (i : Nat) :
    r.OldestUnflushed g.total i ↔ i = g.settled := by
  have hsettled := g.settled_eq
  rw [h.length_waiting] at hsettled
  constructor
  · rintro ⟨hcount, _⟩
    omega
  · rintro rfl
    exact ⟨hsettled, h.buffered⟩

theorem Balances.arrive (h : Balances r g ring) (thread : ι) (call : LogCall)
    (hroom : r.logger.count < kCapacity) : Balances (r.step (.log thread call)) (g.arrive call.record)
      (ring.push (LogEntry.fill call)) := by
  have hring : ring.count < kCapacity := h.refines.count ▸ hroom
  have hdropped : (r.logger.log call).dropped = r.logger.dropped := if_pos hroom
  refine ⟨h.refines.log call, h.out, ?_, hdropped.trans h.dropped⟩
  rw [RingBuffer.contents_push_room ring _ hring, List.map_append, h.waiting, Ledger.waiting_arrive,
    List.map_singleton, record_fill]

theorem Balances.overwrite (h : Balances r g ring) (thread : ι) (call : LogCall)
    (hfull : r.logger.count = kCapacity) (hlt : g.settled < g.total.length) :
    Balances (r.step (.log thread call)) (g.overwrite call.record hlt)
      (ring.push (LogEntry.fill call)) := by
  have hring : ring.count = kCapacity := h.refines.count ▸ hfull
  have hdropped : (r.logger.log call).dropped = r.logger.dropped + 1 := if_neg (by omega)
  refine ⟨h.refines.log call, h.out, ?_, ?_⟩
  · rw [RingBuffer.contents_push_full ring _ hring, List.map_append, List.map_tail, h.waiting,
      Ledger.waiting_overwrite, List.map_singleton, record_fill]
  · show (r.logger.log call).dropped = UInt64.ofNat (g.removed ++ [g.settled]).length
    rw [hdropped, h.dropped, List.length_append, UInt64.ofNat_add]
    rfl

theorem Balances.drain (h : Balances r g ring) :
    Balances (r.step (.drain : LoggerEvent ι)) g.pass ring.clear := by
  obtain ⟨hbatch, hrefines, hdropped⟩ := h.refines.takePending
  refine ⟨hrefines, ?_, ?_, hdropped.trans h.dropped⟩
  · show (r.drained ++ r.logger.takePending.1).map LogEntry.record = g.out ++ g.waiting
    rw [List.map_append, h.out, hbatch, h.waiting]
  · rw [RingBuffer.contents_clear, Ledger.waiting_pass]
    rfl

theorem logged_concat (events : List (LoggerEvent ι)) (e : LoggerEvent ι) :
    logged (events ++ [e]) = logged events ++ logged [e] := List.filterMap_append

theorem exists_balances (slots : Vector LogEntry kCapacity) (events : List (LoggerEvent ι)) :
    ∃ g ring, Balances (run slots events) g ring ∧ g.total = logged events ∧
      ∀ i, i ∈ g.removed ↔ Overwrites slots events i := by
  induction events using List.reverseRecOn with
  | nil =>
    have hring : ({ buffer := slots } : RingBufferLogger).Refines
        ⟨slots, 0, 0, by decide, Nat.zero_le _⟩ := ⟨rfl, rfl, rfl⟩
    refine ⟨.empty, _, ⟨hring, rfl, rfl, rfl⟩, rfl, fun i => ?_⟩
    simp [Ledger.empty, Overwrites]
  | append_singleton events e ih =>
    obtain ⟨g, ring, hbal, htotal, hremoved⟩ := ih
    have holdest := hbal.oldestUnflushed
    rw [htotal] at holdest
    simp only [run_concat, logged_concat, overwrites_concat, holdest, ← hremoved]
    have hle := hbal.refines.count ▸ ring.count_le
    cases e with
    | log thread call =>
      by_cases hroom : (run slots events).logger.count < kCapacity
      · refine ⟨_, _, hbal.arrive thread call hroom, congrArg (· ++ _) htotal, fun i => ?_⟩
        have hnot : ¬ (run slots events).logger.count = kCapacity := by omega
        simp [Ledger.arrive, hnot]
      · have hfull : (run slots events).logger.count = kCapacity := by omega
        have hlt : g.settled < g.total.length := by
          have hsettled := g.settled_eq
          have hpos : 0 < kCapacity := ring.cap_pos
          rw [hbal.length_waiting] at hsettled
          omega
        refine ⟨_, _, hbal.overwrite thread call hfull hlt, congrArg (· ++ _) htotal, fun i => ?_⟩
        simp [Ledger.overwrite, hfull]
    | drain =>
      refine ⟨_, _, hbal.drain, ?_, fun i => ?_⟩
      · rw [Ledger.pass, htotal]
        simp [logged]
      · simp [Ledger.pass]

/-- Over any run: the indices stay in range; what was drained and what is
buffered are together the logged records, in order, without the overwritten
ones; and the counter has their number, modulo 2^64. -/
theorem run_accounts (slots : Vector LogEntry kCapacity) (events : List (LoggerEvent ι)) :
    ((run slots events).logger.head < kCapacity ∧ (run slots events).logger.count ≤ kCapacity) ∧
    ∃ removed : List Nat, removed.Nodup ∧ (∀ i, i ∈ removed ↔ Overwrites slots events i) ∧
      ((run slots events).drained ++ (run slots events).logger.buffered).map LogEntry.record =
        Ledger.without removed (logged events) ∧
      (run slots events).logger.dropped.toNat = removed.length % 2 ^ 64 ∧
      (logged events).length =
        (run slots events).drained.length + (run slots events).logger.count + removed.length := by
  obtain ⟨g, ring, hbal, htotal, hremoved⟩ := exists_balances slots events
  refine ⟨⟨hbal.refines.head ▸ ring.head_lt, hbal.refines.count ▸ ring.count_le⟩, g.removed, g.nodup,
    hremoved, ?_, ?_, ?_⟩
  · rw [List.map_append, hbal.out, hbal.buffered, g.out_append_waiting, htotal]
  · rw [hbal.dropped, UInt64.toNat_ofNat']
  · have hlength := g.length_total
    rw [← hbal.out, List.length_map, hbal.length_waiting, htotal] at hlength
    exact hlength.symm

theorem drained_logs (slots : Vector LogEntry kCapacity) (thread : ι) (call : LogCall) (n : Nat) :
    (run slots (List.replicate n (.log thread call))).drained = [] := by
  induction n with
  | zero => rfl
  | succ n ih =>
    rw [List.replicate_succ', run_concat]
    exact ih

theorem length_logged_logs (thread : ι) (call : LogCall) (n : Nat) :
    (logged (List.replicate n (.log thread call))).length = n := by
  simp [logged]

/-- The counter cannot tell so many calls. -/
theorem logged_ne_counted {n : Nat} (hn : 2 ^ 64 + kCapacity ≤ n) (slots : Vector LogEntry kCapacity)
    (thread : ι) (call : LogCall) : (logged (List.replicate n (.log thread call))).length ≠
      (run slots (List.replicate n (.log thread call))).drained.length +
      (run slots (List.replicate n (.log thread call))).logger.count +
      (run slots (List.replicate n (.log thread call))).logger.dropped.toNat := by
  obtain ⟨g, ring, hbal, _⟩ := exists_balances slots (List.replicate n (.log thread call))
  have hcount := hbal.refines.count ▸ ring.count_le
  have hdropped := (run slots (List.replicate n (.log thread call))).logger.dropped.toNat_lt
  rw [length_logged_logs, drained_logs, List.length_nil]
  omega

def blankEntry : LogEntry := ⟨0, .info, Vector.replicate kMaxMessageLen (Char.ofNat 0), 0⟩

/-- With 2^64 entries overwritten the counter is back at zero. -/
theorem dropped_wraps :
    (logged (List.replicate (2 ^ 64 + kCapacity) (.log () ⟨0, .info, "tick"⟩))).length ≠
      (run (Vector.replicate kCapacity blankEntry)
        (List.replicate (2 ^ 64 + kCapacity) (.log () ⟨0, .info, "tick"⟩))).drained.length +
      (run (Vector.replicate kCapacity blankEntry)
        (List.replicate (2 ^ 64 + kCapacity) (.log () ⟨0, .info, "tick"⟩))).logger.count +
      (run (Vector.replicate kCapacity blankEntry)
        (List.replicate (2 ^ 64 + kCapacity) (.log () ⟨0, .info, "tick"⟩))).logger.dropped.toNat :=
  logged_ne_counted (Nat.le_refl _) _ () ⟨0, .info, "tick"⟩

end LoggerRun

end Openaslc
