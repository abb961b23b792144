import Openaslc.TelemetryServer

/-! The payload lengths a client can announce, and the ones the vector refuses. -/

namespace Openaslc

open StateExcept

/-- The length of a payload arrives in one of its three forms. -/
inductive LengthArrives (env : PollEnv) (payloadLen : UInt8) (s : ClientSocket) :
    Nat → ClientSocket → Prop
  | bits7 (h126 : payloadLen ≠ 126) (h127 : payloadLen ≠ 127) :
    LengthArrives env payloadLen s payloadLen.toNat s
  | bits16 (ext : Fin 2 → UInt8) (s' : ClientSocket) (h126 : payloadLen = 126)
      (hext : recvInto env.ext16 s = .ok ext s') :
    LengthArrives env payloadLen s (BigEndian.value (List.ofFn ext)) s'
  | bits64 (ext : Fin 8 → UInt8) (s' : ClientSocket) (h127 : payloadLen = 127)
      (hext : recvInto env.ext64 s = .ok ext s') :
    LengthArrives env payloadLen s (BigEndian.value (List.ofFn ext)) s'

/-- The next frame is announced with `n` payload bytes, and the stream goes on
until they are due. -/
def Announces (env : PollEnv) (s : ClientSocket) (opcode : UInt8) (n : Nat)
    (atPayload : ClientSocket) : Prop :=
  ∃ header s₁ s₂ maskKey, recvInto env.header s = .ok header s₁ ∧ header 0 &&& 0x0F = opcode ∧
    LengthArrives env (header 1 &&& 0x7F) s₁ n s₂ ∧
    recvMaskKey (header 1 &&& 0x80 != 0) s₂ = .ok maskKey atPayload

/-- No vector has the announced size, or the memory for it is not there, or, when
a whole ping has come, the memory for its pong is not. -/
def AnnouncesOversize (env : PollEnv) (s : ClientSocket) : Prop :=
  env.ready = true ∧ ∃ opcode n atPayload, Announces env s opcode n atPayload ∧
    (vectorMaxSize < n ∨ env.heap.allocates n = false ∨
      (opcode = 0x9 ∧ env.heap.allocates (n + 2) = false ∧
        ∃ payload s', recvPayload n atPayload = .ok payload s'))

theorem recvLength_error {env : PollEnv} {payloadLen : UInt8} {s s' : ClientSocket} {e : Stop}
    (h : recvLength env payloadLen s = .error e s') : e = .closed := by
  rw [recvLength] at h
  split at h
  · rcases bind_eq_error.mp h with h | ⟨_, _, _, h⟩
    · exact recvInto_error h
    · cases h
  · split at h
    · rcases bind_eq_error.mp h with h | ⟨_, _, _, h⟩
      · exact recvInto_error h
      · cases h
    · cases h

theorem recvMaskKey_error {masked : Bool} {s s' : ClientSocket} {e : Stop}
    (h : recvMaskKey masked s = .error e s') : e = .closed := by
  rw [recvMaskKey] at h
  split at h
  · exact recvInto_error h
  · cases h

/-! ### The announced length -/

theorem ext16_value (ext : Fin 2 → UInt8) :
    (((ext 0).toUInt64 <<< 8) ||| (ext 1).toUInt64).toNat = BigEndian.value (List.ofFn ext) := by
  have h0 : (ext 0).toUInt64.toNat = (ext 0).toNat := UInt8.toNat_toUInt64 _
  have hlt := (ext 0).toNat_lt
  rw [BigEndian.shift_or _ _ (by omega), h0]
  simp [BigEndian.value, List.ofFn_succ]

theorem recvLength_arrives {env : PollEnv} {payloadLen : UInt8} {s s' : ClientSocket} {len : UInt64}
    (h : recvLength env payloadLen s = .ok len s') : LengthArrives env payloadLen s len.toNat s' := by
  rw [recvLength] at h
  split at h
  · next h126 =>
    obtain ⟨ext, m, hext, h⟩ := bind_eq_ok.mp h
    obtain ⟨rfl, rfl⟩ := EStateM.Result.ok.inj h
    rw [ext16_value]
    exact .bits16 ext m h126 hext
  · next h126 =>
    split at h
    · next h127 =>
      obtain ⟨ext, m, hext, h⟩ := bind_eq_ok.mp h
      obtain ⟨rfl, rfl⟩ := EStateM.Result.ok.inj h
      rw [BigEndian.foldl_shift_or _ (by simp)]
      exact .bits64 ext m h127 hext
    · next h127 =>
      obtain ⟨rfl, rfl⟩ := EStateM.Result.ok.inj h
      rw [UInt8.toNat_toUInt64]
      exact .bits7 h126 h127

theorem LengthArrives.recvLength {env : PollEnv} {payloadLen : UInt8} {s s' : ClientSocket} {n : Nat}
    (h : LengthArrives env payloadLen s n s') :
    ∃ len, recvLength env payloadLen s = .ok len s' ∧ len.toNat = n := by
  cases h with
  | bits7 h126 h127 =>
    exact ⟨_, by rw [Openaslc.recvLength, if_neg h126, if_neg h127]; rfl, UInt8.toNat_toUInt64 _⟩
  | bits16 ext s' h126 hext =>
    refine ⟨_, ?_, ext16_value ext⟩
    rw [Openaslc.recvLength, if_pos h126]
    exact bind_of_ok hext _
  | bits64 ext s' h127 hext =>
    refine ⟨_, ?_, BigEndian.foldl_shift_or (List.ofFn ext) (by simp)⟩
    rw [Openaslc.recvLength, if_neg (by rw [h127]; decide), if_pos h127]
    exact bind_of_ok hext _

/-- Only the 64-bit form reaches past the size of every vector, and it does so
with its top bit. -/
theorem LengthArrives.oversize_iff {env : PollEnv} {payloadLen : UInt8} {s s' : ClientSocket} {n : Nat}
    (h : LengthArrives env payloadLen s n s') :
    vectorMaxSize < n ↔
      payloadLen = 127 ∧ ∃ ext, recvInto env.ext64 s = .ok ext s' ∧ 0x80 ≤ ext 0 := by
  have hmax : vectorMaxSize = 2 ^ 63 - 1 := rfl
  cases h with
  | bits7 h126 h127 =>
    have hlt := payloadLen.toNat_lt
    constructor
    · intro hlarge
      omega
    · rintro ⟨h, _⟩
      exact absurd h h127
  | bits16 ext s' h126 hext =>
    have hlt := BigEndian.value_lt (List.ofFn ext)
    rw [List.length_ofFn] at hlt
    constructor
    · intro hlarge
      omega
    · rintro ⟨h, _⟩
      rw [h126] at h
      exact absurd h (by decide)
  | bits64 ext s' h127 hext =>
    have htop : 2 ^ 63 ≤ BigEndian.value (List.ofFn ext) ↔ 128 ≤ (ext 0).toNat := by
      rw [List.ofFn_succ]
      have := BigEndian.top_bit_iff (ext 0) (List.ofFn fun i : Fin 7 => ext i.succ)
      simpa using this
    have hbyte : 0x80 ≤ ext 0 ↔ 128 ≤ (ext 0).toNat := UInt8.le_iff_toNat_le
    constructor
    · intro hlarge
      exact ⟨h127, ext, hext, hbyte.mpr (htop.mp (by omega))⟩
    · rintro ⟨_, ext', hext', hlarge⟩
      obtain ⟨rfl, _⟩ := EStateM.Result.ok.inj (hext.symm.trans hext')
      have := htop.mpr (hbyte.mp hlarge)
      omega

/-! ### The vectors -/

theorem recvPayload_length {n : Nat} {s s' : ClientSocket} {payload : List UInt8}
    (h : recvPayload n s = .ok payload s') : payload.length = n := by
  induction n using Nat.strong_induction_on generalizing s s' payload with
  | h n ih =>
    rw [recvPayload] at h
    split at h
    · next hn =>
      obtain ⟨rfl, _⟩ := EStateM.Result.ok.inj h
      exact hn.symm
    · obtain ⟨bytes, m, hbytes, h⟩ := bind_eq_ok.mp h
      obtain ⟨rest, m', hrest, h⟩ := bind_eq_ok.mp h
      obtain ⟨rfl, rfl⟩ := EStateM.Result.ok.inj h
      have hpos := List.length_pos_iff.mpr bytes.property
      have hle := recv_length_le hbytes
      have hlength := ih _ (by omega) hrest
      have hrequest := ioRequest_le n
      have hmod := Nat.mod_le n (2 ^ 32)
      rw [List.length_append, hlength]
      omega

theorem recvVector_threw_iff (heap : Heap) (payloadLen : UInt64) (s : ClientSocket) :
    (∃ e s', recvVector heap payloadLen s = .error (.threw e) s') ↔
      vectorMaxSize < payloadLen.toNat ∨ heap.allocates payloadLen.toNat = false := by
  rw [recvVector]
  split
  · next hlarge => exact ⟨fun _ => .inl hlarge, fun _ => ⟨_, s, rfl⟩⟩
  · next hlarge =>
    split
    · next hmemory =>
      constructor
      · rintro ⟨e, s', he⟩
        cases recvPayload_error he
      · rintro (h | h)
        · exact absurd h hlarge
        · rw [h] at hmemory
          cases hmemory
    · next hmemory => exact ⟨fun _ => .inr (Bool.not_eq_true _ ▸ hmemory), fun _ => ⟨_, s, rfl⟩⟩

theorem recvVector_ok {heap : Heap} {payloadLen : UInt64} {s s' : ClientSocket} {payload : List UInt8}
    (h : recvVector heap payloadLen s = .ok payload s') :
    recvPayload payloadLen.toNat s = .ok payload s' := by
  rw [recvVector] at h
  split at h
  · cases h
  · split at h
    · exact h
    · cases h

/-! ### A poll -/

theorem recvFrame_threw {env : PollEnv} {s s' : ClientSocket} {e : Exception}
    (h : recvFrame env s = .error (.threw e) s') : ∃ opcode n atPayload,
      Announces env s opcode n atPayload ∧ (vectorMaxSize < n ∨ env.heap.allocates n = false) := by
  rcases bind_eq_error.mp h with h | ⟨header, s₁, hheader, h⟩
  · cases recvInto_error h
  rcases bind_eq_error.mp h with h | ⟨len, s₂, hlen, h⟩
  · cases recvLength_error h
  rcases bind_eq_error.mp h with h | ⟨maskKey, s₃, hkey, h⟩
  · cases recvMaskKey_error h
  rcases bind_eq_error.mp h with h | ⟨payload, s₄, _, h⟩
  · have hbad := (recvVector_threw_iff env.heap len s₃).mp ⟨e, s', h⟩
    exact ⟨_, _, s₃, ⟨header, s₁, s₂, maskKey, hheader, rfl, recvLength_arrives hlen, hkey⟩, hbad⟩
  · cases h

theorem recvFrame_announces {env : PollEnv} {s s' : ClientSocket} {frame : ClientFrame}
    (h : recvFrame env s = .ok frame s') : ∃ atPayload payload,
      Announces env s frame.opcode frame.payload.length atPayload ∧
        recvPayload frame.payload.length atPayload = .ok payload s' := by
  obtain ⟨header, s₁, hheader, h⟩ := bind_eq_ok.mp h
  obtain ⟨len, s₂, hlen, h⟩ := bind_eq_ok.mp h
  obtain ⟨maskKey, s₃, hkey, h⟩ := bind_eq_ok.mp h
  obtain ⟨payload, s₄, hvector, h⟩ := bind_eq_ok.mp h
  obtain ⟨rfl, rfl⟩ := EStateM.Result.ok.inj h
  have hpayload := recvVector_ok hvector
  have hlength : (if header 1 &&& 0x80 != 0 then unmask maskKey payload else payload).length =
      len.toNat := by
    rw [← recvPayload_length hpayload]
    split
    · exact List.length_mapIdx
    · rfl
  simp only [hlength]
  exact ⟨s₃, payload, ⟨header, s₁, s₂, maskKey, hheader, rfl, recvLength_arrives hlen, hkey⟩, hpayload⟩

/-- A payload that is announced either has no vector or comes in. -/
theorem Announces.recvFrame {env : PollEnv} {s atPayload : ClientSocket} {opcode : UInt8} {n : Nat}
    (h : Announces env s opcode n atPayload) :
    (vectorMaxSize < n ∨ env.heap.allocates n = false → ∃ e s', recvFrame env s = .error (.threw e) s') ∧
      (¬ vectorMaxSize < n → env.heap.allocates n = true → ∀ payload s',
        recvPayload n atPayload = .ok payload s' → ∃ frame, recvFrame env s = .ok frame s' ∧
          frame.opcode = opcode ∧ frame.payload.length = n) := by
  obtain ⟨header, s₁, s₂, maskKey, hheader, rfl, harrives, hkey⟩ := h
  obtain ⟨len, hlen, rfl⟩ := harrives.recvLength
  constructor
  · intro hbad
    obtain ⟨e, s', hvector⟩ := (recvVector_threw_iff env.heap len atPayload).mpr hbad
    exact ⟨e, s', bind_eq_error.mpr (.inr ⟨header, s₁, hheader, bind_eq_error.mpr
      (.inr ⟨len, s₂, hlen, bind_eq_error.mpr (.inr ⟨maskKey, atPayload, hkey, bind_eq_error.mpr
        (.inl hvector)⟩)⟩)⟩)⟩
  · intro hlarge hmemory payload s' hpayload
    have hvector : recvVector env.heap len atPayload = .ok payload s' := by
      rw [recvVector, if_neg hlarge, if_pos hmemory, hpayload]
    refine ⟨_, recvFrame_ok hheader hlen hkey hvector, rfl, ?_⟩
    rw [← recvPayload_length hpayload]
    dsimp only
    split
    · exact List.length_mapIdx
    · rfl

theorem answerFrame_threw_iff (heap : Heap) (frame : ClientFrame) (s : ClientSocket) :
    (∃ e s', answerFrame heap frame s = .error e s') ↔
      frame.opcode = 0x9 ∧ heap.allocates (frame.payload.length + 2) = false := by
  rw [answerFrame]
  by_cases h8 : frame.opcode = 0x8
  · simp [h8]
  · by_cases h9 : frame.opcode = 0x9
    · cases hmemory : heap.allocates (frame.payload.length + 2) <;> simp [h9]
    · simp [h8, h9]

theorem pollClientFrame_threw_iff (env : PollEnv) (s : ClientSocket) :
    (∃ e s', pollClientFrame env s = .error e s') ↔ AnnouncesOversize env s := by
  by_cases hready : env.ready = true
  · constructor
    · rintro ⟨e, s', h⟩
      cases hrecv : recvFrame env s with
      | ok frame m =>
        rw [pollClientFrame_ok hready hrecv] at h
        obtain ⟨h9, hpong⟩ := (answerFrame_threw_iff env.heap frame m).mp ⟨e, s', h⟩
        obtain ⟨atPayload, payload, hann, hpayload⟩ := recvFrame_announces hrecv
        exact ⟨hready, _, _, atPayload, hann, .inr (.inr ⟨h9, hpong, payload, m, hpayload⟩)⟩
      | error stop m =>
        cases stop with
        | closed =>
          rw [pollClientFrame_closed hready hrecv] at h
          cases h
        | threw e' =>
          obtain ⟨opcode, n, atPayload, hann, hbad⟩ := recvFrame_threw hrecv
          exact ⟨hready, opcode, n, atPayload, hann, hbad.imp_right .inl⟩
    · rintro ⟨_, opcode, n, atPayload, hann, hbad⟩
      by_cases hvector : vectorMaxSize < n ∨ env.heap.allocates n = false
      · obtain ⟨e, s', h⟩ := hann.recvFrame.1 hvector
        exact ⟨e, s', pollClientFrame_threw hready h⟩
      · obtain ⟨hlarge, hmemory⟩ := not_or.mp hvector
        obtain ⟨rfl, hpong, payload, s', hpayload⟩ :=
          (hbad.resolve_left hlarge).resolve_left hmemory
        obtain ⟨frame, hframe, hopcode, hlength⟩ :=
          hann.recvFrame.2 hlarge (Bool.not_eq_false _ ▸ hmemory) payload s' hpayload
        rw [pollClientFrame_ok hready hframe]
        exact (answerFrame_threw_iff env.heap frame s').mpr ⟨hopcode, hlength ▸ hpong⟩
  · constructor
    · rintro ⟨e, s', h⟩
      rw [pollClientFrame_idle (by simpa using hready)] at h
      cases h
    · intro h
      exact absurd h.1 hready

theorem clientLoop_threw_iff (ticks : List Tick) (sequence : UInt64) (s : ClientSocket) :
    (∃ e s', clientLoop ticks sequence s = .error e s') ↔
      ∃ p ∈ polls ticks sequence s, AnnouncesOversize p.1.poll p.2 := by
  induction ticks generalizing sequence s with
  | nil =>
    constructor
    · rintro ⟨e, s', h⟩
      cases h
    · rintro ⟨p, hp, _⟩
      cases hp
  | cons tick rest ih =>
    rw [polls, clientLoop]
    cases hturn : clientTurn tick sequence s with
    | error e s' =>
      have hpoll := clientTurn_error hturn
      have hover := (pollClientFrame_threw_iff tick.poll s).mp ⟨e, s', hpoll⟩
      constructor
      · intro _
        exact ⟨(tick, s), List.mem_cons_self, hover⟩
      · intro _
        exact ⟨e, s', bind_eq_error.mpr (.inl hturn)⟩
    | ok goesOn s' =>
      have hnot : ¬ AnnouncesOversize tick.poll s := by
        intro hover
        obtain ⟨e, m, hpoll⟩ := (pollClientFrame_threw_iff tick.poll s).mpr hover
        rw [clientTurn_threw hpoll] at hturn
        cases hturn
      cases goesOn with
      | false =>
        constructor
        · rintro ⟨e, m, h⟩
          rcases bind_eq_error.mp h with h | ⟨goesOn, m', h, h'⟩
          · rw [hturn] at h
            cases h
          · rw [hturn] at h
            cases h
            cases h'
        · rintro ⟨p, hp, hover⟩
          obtain rfl := List.mem_singleton.mp hp
          exact absurd hover hnot
      | true =>
        have htail : (∃ e m, (clientTurn tick sequence >>= fun goesOn =>
            if goesOn then clientLoop rest (sequence + 1) else pure ()) s = .error e m) ↔
            ∃ e m, clientLoop rest (sequence + 1) s' = .error e m := by
          simp only [bind_eq_error, hturn]
          simp
        rw [htail, ih]
        simp [hnot]

/-- Every poll of a run ends with one of its three results and no exception
leaves the loop, exactly when no poll finds an oversized announcement. -/
theorem clientLoop_returns_iff (ticks : List Tick) (sequence : UInt64) (s : ClientSocket) :
    ((∀ p ∈ polls ticks sequence s, ∃ result s', pollClientFrame p.1.poll p.2 = .ok result s') ∧
      ∃ s', clientLoop ticks sequence s = .ok () s') ↔
    ∀ p ∈ polls ticks sequence s, ¬ AnnouncesOversize p.1.poll p.2 := by
  constructor
  · rintro ⟨_, s', hloop⟩ p hp hover
    obtain ⟨e, m, h⟩ := (clientLoop_threw_iff ticks sequence s).mpr ⟨p, hp, hover⟩
    rw [hloop] at h
    cases h
  · intro hnone
    constructor
    · intro p hp
      cases h : pollClientFrame p.1.poll p.2 with
      | ok result s' => exact ⟨result, s', rfl⟩
      | error e s' =>
        exact absurd ((pollClientFrame_threw_iff p.1.poll p.2).mp ⟨e, s', h⟩) (hnone p hp)
    · cases h : clientLoop ticks sequence s with
      | ok result s' => exact ⟨s', rfl⟩
      | error e s' =>
        obtain ⟨p, hp, hover⟩ := (clientLoop_threw_iff ticks sequence s).mp ⟨e, s', h⟩
        exact absurd hover (hnone p hp)

/-- A binary frame that announces `2 ^ 64 - 1` bytes, received without cuts. -/
def oversizedFrame : ClientSocket where
  incoming := [0x82, 0x7F, 0xFF, 0xFF, 0xFF, 0xFF, 0xFF, 0xFF, 0xFF, 0xFF]
  recvPlan _ := 8
  sendPlan _ := 0

theorem clientLoop_threw_oversized : ∃ s',
    pollClientFrame zeroPoll oversizedFrame =
      .error (.lengthError "cannot create std::vector larger than max_size()") s' ∧
    clientLoop [⟨zeroPoll, {}, {}⟩] 0 oversizedFrame =
      .error (.lengthError "cannot create std::vector larger than max_size()") s' :=
  ⟨_, rfl, rfl⟩

end Openaslc
