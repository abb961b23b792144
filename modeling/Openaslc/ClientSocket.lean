import Openaslc.StandardLibrary
import Openaslc.StateExcept

/-! A connected socket, and the loops that read and write it. `recv` and `send`
move any part of what a call asks for. -/

namespace Openaslc

open StateExcept

/-- The `k`-th call from now on moves at most `recvPlan k` or `sendPlan k`
bytes; at 0 it fails. -/
structure ClientSocket where
  incoming : List UInt8
  recvPlan : Nat → Nat
  sendPlan : Nat → Nat
  outgoing : List UInt8 := []

/-- The length that `static_cast<int>(n)` asks for. A negative one is a huge
`size_t`, of which one call moves no more than this. -/
def ioRequest (n : Nat) : Nat :=
  if n % 2 ^ 32 < 2 ^ 31 then n % 2 ^ 32 else 0x7ffff000

theorem ioRequest_le (n : Nat) : ioRequest n ≤ n % 2 ^ 32 := by
  rw [ioRequest]
  split <;> omega

theorem ioRequest_pos {n : Nat} (h : n % 2 ^ 32 ≠ 0) : 0 < ioRequest n := by
  rw [ioRequest]
  split <;> omega

namespace ClientSocket

def received (s : ClientSocket) (n : Nat) : ClientSocket :=
  { s with incoming := s.incoming.drop n, recvPlan := fun k => s.recvPlan (k + 1) }

def sent (s : ClientSocket) (bytes : List UInt8) : ClientSocket :=
  { s with sendPlan := fun k => s.sendPlan (k + 1), outgoing := s.outgoing ++ bytes }

end ClientSocket

/-- Why a frame is not read to its end. -/
inductive Stop
  | closed
  | threw (e : Exception)
  deriving DecidableEq

abbrev SocketM := EStateM Stop ClientSocket

/-- `recv(sock, ..., want, 0)`, where the caller gives up at a result `<= 0`. -/
def recv (want : Nat) : SocketM {bytes : List UInt8 // bytes ≠ []} := fun s =>
  let n := min (s.recvPlan 0) want
  if h : s.incoming.take n ≠ [] then .ok ⟨s.incoming.take n, h⟩ (s.received n)
  else .error .closed (s.received n)

/-- One `recv` into an array, which keeps what it does not overwrite. -/
def recvInto {n : Nat} (buffer : Fin n → UInt8) : SocketM (Fin n → UInt8) := do
  let bytes ← recv n
  return fun i => bytes.val.getD i (buffer i)

/-- `while (received < payload.size())`. -/
def recvPayload (remaining : Nat) : SocketM (List UInt8) :=
  if remaining = 0 then pure []
  else do
    let bytes ← recv (ioRequest remaining)
    let rest ← recvPayload (remaining - bytes.val.length)
    return bytes.val ++ rest
termination_by remaining
decreasing_by
  have hpos := List.length_pos_iff.mpr bytes.property
  omega

def sendAll (data : List UInt8) (s : ClientSocket) : Bool × ClientSocket :=
  if data = [] then (true, s)
  else
    let n := min (s.sendPlan 0) (ioRequest data.length)
    if n = 0 then (false, s.sent [])
    else sendAll (data.drop n) (s.sent (data.take n))
termination_by data.length
decreasing_by
  have hpos := List.length_pos_iff.mpr ‹data ≠ []›
  rw [List.length_drop]
  omega

/-! ### Sending -/

theorem sendAll_cut {data : List UInt8} {s : ClientSocket} (hdata : data ≠ [])
    (h : min (s.sendPlan 0) (ioRequest data.length) = 0) : sendAll data s = (false, s.sent []) := by
  rw [sendAll, if_neg hdata]
  exact if_pos h

theorem sendAll_step {data : List UInt8} {s : ClientSocket} (hdata : data ≠ []) {n : Nat}
    (hn : n = min (s.sendPlan 0) (ioRequest data.length)) (h : n ≠ 0) :
    sendAll data s = sendAll (data.drop n) (s.sent (data.take n)) := by
  subst hn
  rw [sendAll, if_neg hdata]
  exact if_neg h

theorem sendAll_refused {data : List UInt8} (s : ClientSocket) (hdata : data ≠ [])
    (h : s.sendPlan 0 = 0) : sendAll data s = (false, s.sent []) :=
  sendAll_cut hdata (by omega)

theorem sendAll_whole {data : List UInt8} {s : ClientSocket} (hdata : data ≠ [])
    (hlength : data.length < 2 ^ 31) (h : data.length ≤ s.sendPlan 0) :
    sendAll data s = (true, s.sent data) := by
  have hpos := List.length_pos_iff.mpr hdata
  have hrequest : ioRequest data.length = data.length := by
    rw [ioRequest, Nat.mod_eq_of_lt (by omega), if_pos hlength]
  have hall : data.length = min (s.sendPlan 0) (ioRequest data.length) := by
    rw [hrequest, Nat.min_eq_right h]
  rw [sendAll_step hdata hall (by omega), List.drop_length, List.take_length, sendAll, if_pos rfl]

/-- `send_all` puts out a prefix, and returns true when that is everything. -/
theorem sendAll_prefix (data : List UInt8) (s : ClientSocket) :
    ∃ k, (sendAll data s).2.outgoing = s.outgoing ++ data.take k ∧
      ((sendAll data s).1 = true → data.take k = data) ∧
      (sendAll data s).2.incoming = s.incoming ∧ (sendAll data s).2.recvPlan = s.recvPlan := by
  induction data, s using sendAll.induct with
  | case1 s => exact ⟨0, by simp [sendAll]⟩
  | case2 data s hdata n hn =>
    rw [sendAll_cut hdata hn]
    exact ⟨0, by simp [ClientSocket.sent], nofun, rfl, rfl⟩
  | case3 data s hdata n hn ih =>
    obtain ⟨k, hout, hall, hin, hplan⟩ := ih
    have htake : data.take n ++ (data.drop n).take k = data.take (n + k) := List.take_add.symm
    rw [sendAll_step hdata rfl hn]
    refine ⟨n + k, ?_, fun hok => ?_, hin, hplan⟩
    · rw [hout, ← htake, ← List.append_assoc]
      rfl
    · rw [← htake, hall hok, List.take_append_drop]

/-- What sending looks at, and what reading leaves alone. -/
def ClientSocket.sending (s : ClientSocket) : (Nat → Nat) × List UInt8 := (s.sendPlan, s.outgoing)

theorem ClientSocket.sending_sent {s t : ClientSocket} (h : s.sending = t.sending)
    (bytes : List UInt8) : (s.sent bytes).sending = (t.sent bytes).sending := by
  obtain ⟨hplan, hout⟩ := Prod.mk.inj h
  simp [sending, sent, hplan, hout]

theorem sendAll_congr {s t : ClientSocket} (data : List UInt8) (h : s.sending = t.sending) :
    (sendAll data s).1 = (sendAll data t).1 ∧
      (sendAll data s).2.sending = (sendAll data t).2.sending := by
  have hplan : s.sendPlan = t.sendPlan := (Prod.mk.inj h).1
  induction hlen : data.length using Nat.strong_induction_on generalizing data s t with
  | h length ih =>
    by_cases hdata : data = []
    · subst hdata
      simp [sendAll, h]
    have hpos := List.length_pos_iff.mpr hdata
    by_cases hn : min (s.sendPlan 0) (ioRequest data.length) = 0
    · rw [sendAll_cut hdata hn, sendAll_cut hdata (hplan ▸ hn)]
      exact ⟨rfl, ClientSocket.sending_sent h []⟩
    · obtain ⟨n, hmin⟩ : ∃ n, n = min (s.sendPlan 0) (ioRequest data.length) := ⟨_, rfl⟩
      rw [sendAll_step hdata hmin (hmin ▸ hn), sendAll_step hdata (hplan ▸ hmin) (hmin ▸ hn)]
      have hsent := ClientSocket.sending_sent h (data.take n)
      have hshorter : (data.drop n).length < length := by
        rw [List.length_drop]
        omega
      exact ih _ hshorter _ hsent (Prod.mk.inj hsent).1 rfl

/-! ### Receiving -/

theorem recv_error {want : Nat} {s s' : ClientSocket} {e : Stop} (h : recv want s = .error e s') :
    e = .closed := by
  simp only [recv] at h
  split at h
  · cases h
  · cases h
    rfl

theorem recv_length_le {want : Nat} {s s' : ClientSocket} {bytes : {bytes : List UInt8 // bytes ≠ []}}
    (h : recv want s = .ok bytes s') : bytes.val.length ≤ want := by
  simp only [recv] at h
  split at h
  · obtain ⟨rfl, _⟩ := EStateM.Result.ok.inj h
    rw [List.length_take]
    omega
  · cases h

theorem recvInto_error {n : Nat} {buffer : Fin n → UInt8} {s s' : ClientSocket} {e : Stop}
    (h : recvInto buffer s = .error e s') : e = .closed := by
  rcases bind_eq_error.mp h with h | ⟨_, _, _, h⟩
  · exact recv_error h
  · cases h

theorem recvPayload_error {remaining : Nat} {s s' : ClientSocket} {e : Stop}
    (h : recvPayload remaining s = .error e s') : e = .closed := by
  induction remaining using Nat.strong_induction_on generalizing s with
  | h remaining ih =>
    rw [recvPayload] at h
    split at h
    · cases h
    · next hpos =>
      rcases bind_eq_error.mp h with h | ⟨bytes, m, _, h⟩
      · exact recv_error h
      · have hlen := List.length_pos_iff.mpr bytes.property
        rcases bind_eq_error.mp h with h | ⟨_, _, _, h⟩
        · exact ih _ (by omega) h
        · cases h

def ClientSocket.Flows (s : ClientSocket) : Prop := ∀ k, 1 ≤ s.recvPlan k

theorem ClientSocket.Flows.received {s : ClientSocket} (h : s.Flows) (n : Nat) :
    (s.received n).Flows := fun k => h (k + 1)

/-- However the stream is cut, the payload loop reads `n` bytes if they come
and their number fits an `unsigned`, and gives up otherwise. -/
theorem recvPayload_cases {s : ClientSocket} (hflows : s.Flows) (n : Nat) :
    (n < 2 ^ 32 ∧ n ≤ s.incoming.length ∧ ∃ s', recvPayload n s = .ok (s.incoming.take n) s' ∧
      s'.incoming = s.incoming.drop n ∧ ∃ j, s'.recvPlan = fun k => s.recvPlan (k + j)) ∨
    ((2 ^ 32 ≤ n ∨ s.incoming.length < n) ∧ ∃ s', recvPayload n s = .error .closed s') := by
  induction n using Nat.strong_induction_on generalizing s with
  | h n ih =>
    by_cases hn : n = 0
    · subst hn
      exact .inl ⟨by omega, by omega, s, by rw [recvPayload]; rfl, rfl, 0, rfl⟩
    rw [recvPayload, if_neg hn]
    have hrequest := ioRequest_le n
    obtain ⟨m, hm⟩ : ∃ m, m = min (s.recvPlan 0) (ioRequest n) := ⟨_, rfl⟩
    by_cases hbytes : s.incoming.take m ≠ []
    · have hrecv : recv (ioRequest n) s = .ok ⟨s.incoming.take m, hbytes⟩ (s.received m) := by
        subst hm
        exact dif_pos hbytes
      have hlen : (s.incoming.take m).length = min m s.incoming.length := List.length_take
      have hpos := List.length_pos_iff.mpr hbytes
      have hdrop : (s.received m).incoming = s.incoming.drop m := rfl
      have hrest : (s.received m).incoming.length = s.incoming.length - m := by
        rw [hdrop, List.length_drop]
      rcases ih (n - (s.incoming.take m).length) (by omega) (hflows.received m) with
        ⟨hlt, hle, s', hok, hin, j, hplan⟩ | ⟨hbad, s', herr⟩
      · have hm' : (s.incoming.take m).length = m := by omega
        have hcut : s.incoming.take m ++ (s.incoming.drop m).take (n - m) = s.incoming.take n := by
          rw [← List.take_add]
          congr 1
          omega
        refine .inl ⟨by omega, by omega, s', ?_, ?_, j + 1, hplan⟩
        · refine bind_eq_ok.mpr ⟨_, _, hrecv, bind_eq_ok.mpr ⟨_, s', hok, ?_⟩⟩
          rw [hm', hdrop, hcut]
          rfl
        · rw [hin, hm', hdrop, List.drop_drop]
          congr 1
          omega
      · refine .inr ⟨by omega, s', bind_eq_error.mpr (.inr ⟨_, _, hrecv, ?_⟩)⟩
        exact bind_eq_error.mpr (.inl herr)
    · have hrecv : recv (ioRequest n) s = .error .closed (s.received m) := by
        subst hm
        exact dif_neg hbytes
      refine .inr ⟨?_, s.received m, bind_eq_error.mpr (.inl hrecv)⟩
      rw [not_not, List.take_eq_nil_iff] at hbytes
      rcases hbytes with hzero | hnil
      · left
        by_contra hsmall
        have hmod : n % 2 ^ 32 ≠ 0 := by omega
        have := ioRequest_pos hmod
        have := hflows 0
        omega
      · right
        rw [hnil]
        exact Nat.pos_of_ne_zero hn

theorem recv_sending (want : Nat) : Preserves ClientSocket.sending (recv want) := by
  intro s
  simp only [recv]
  split <;> rfl

theorem recvInto_sending {n : Nat} (buffer : Fin n → UInt8) :
    Preserves ClientSocket.sending (recvInto buffer) :=
  (recv_sending n).bind fun _ => Preserves.pure _ _

theorem recvPayload_sending (remaining : Nat) :
    Preserves ClientSocket.sending (recvPayload remaining) := by
  induction remaining using Nat.strong_induction_on with
  | h remaining ih =>
    rw [recvPayload]
    split
    · exact Preserves.pure _ _
    · refine (recv_sending _).bind fun bytes => ?_
      have hlen := List.length_pos_iff.mpr bytes.property
      exact (ih _ (by omega)).bind fun _ => Preserves.pure _ _

end Openaslc
