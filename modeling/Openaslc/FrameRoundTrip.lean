import Openaslc.FrameSegments
import Openaslc.RawFrame
import Openaslc.TelemetryOutput

/-! Frames read back: what `send_text_frame` writes, by any RFC 6455 reader,
and what any client writes, by `poll_client_frame`. -/

namespace Openaslc

open StateExcept WebSocket

/-! ### Text frames -/

def ClientSocket.Accepts (s : ClientSocket) : Prop := ∀ k, 1 ≤ s.sendPlan k

theorem sendAll_accepts {data : List UInt8} {s : ClientSocket} (hlength : data.length < 2 ^ 32)
    (h : s.Accepts) : (sendAll data s).1 = true ∧
      (sendAll data s).2.outgoing = s.outgoing ++ data ∧ (sendAll data s).2.Accepts := by
  induction data, s using sendAll.induct with
  | case1 s => simpa [sendAll] using h
  | case2 data s hdata n hn =>
    have hpos := List.length_pos_iff.mpr hdata
    have hrequest := ioRequest_pos (n := data.length) (by omega)
    have haccept := h 0
    omega
  | case3 data s hdata n hn ih =>
    have hshorter : (data.drop n).length < 2 ^ 32 := by
      rw [List.length_drop]
      omega
    obtain ⟨hok, hout, haccepts⟩ := ih hshorter fun k => h (k + 1)
    rw [sendAll_step hdata rfl hn]
    refine ⟨hok, ?_, haccepts⟩
    rw [hout, ClientSocket.sent, List.append_assoc, List.take_append_drop]

/-- Calls of `send_text_frame`, one after the other. -/
def sendTextFrames : List (List UInt8) → EStateM Exception ClientSocket (List Bool)
  | [] => pure []
  | payload :: rest => do
    let ok ← sendTextFrame payload
    let oks ← sendTextFrames rest
    return ok :: oks

/-- FIN and text, without reserved bits or mask, and no form of the length
would be shorter. -/
structure PlainTextFrame (f : RawFrame) : Prop where
  fin : f.fin = true
  rsv : f.rsv = 0
  opcode : f.opcode = 1
  unmasked : f.maskKey = none
  shortest : ∀ form : LengthForm, f.payload.length < form.limit → f.form.size ≤ form.size

theorem plainTextFrame_raw {payload : List UInt8} (h : payload.length < 2 ^ 63) :
    PlainTextFrame (textOf payload h).raw :=
  ⟨rfl, rfl, rfl, rfl, fun _ => LengthForm.shortest_le⟩

theorem sendTextFrame_accepts {payload : List UInt8} {s : ClientSocket}
    (hlength : payload.length < 2 ^ 30) (h : s.Accepts) :
    ∃ f s', sendTextFrame payload s = .ok true s' ∧ s'.outgoing = s.outgoing ++ f.encode ∧
      s'.Accepts ∧ f.payload = payload ∧ PlainTextFrame f := by
  have hlt : payload.length < 2 ^ 63 := by omega
  have hencode : textFrame payload = (textOf payload hlt).raw.encode := by
    rw [textFrame_eq hlt, Frame.encode_raw]
  have hframe : (textFrame payload).length < 2 ^ 32 := by
    have hdeclare : (declare payload.length).length ≤ 9 := by
      rw [declare]
      split
      · simp
      · split <;> simp [BigEndian.length_encode]
    rw [textFrame_eq hlt]
    simp only [Frame.encode, textOf, List.length_cons, List.length_append]
    omega
  obtain ⟨hok, hout, haccepts⟩ := sendAll_accepts hframe h
  refine ⟨(textOf payload hlt).raw, (sendAll (textFrame payload) s).2, ?_, ?_, haccepts, rfl,
    plainTextFrame_raw hlt⟩
  · rw [sendTextFrame, hok]
  · rw [hout, hencode]

/-- However `send` cuts the data, the frames of successive calls read back as
the payloads, in the shortest form, with nothing left over. -/
theorem sendTextFrames_decode {payloads : List (List UInt8)} {s : ClientSocket}
    (hlength : ∀ payload ∈ payloads, payload.length < 2 ^ 30) (hsend : ∀ k, 1 ≤ s.sendPlan k) :
    ∃ s' bytes frames, sendTextFrames payloads s = .ok (payloads.map fun _ => true) s' ∧
      s'.outgoing = s.outgoing ++ bytes ∧ Decodes bytes frames ∧
      frames.map RawFrame.payload = payloads ∧ ∀ f ∈ frames, PlainTextFrame f := by
  induction payloads generalizing s with
  | nil => exact ⟨s, [], [], rfl, by simp, .nil, rfl, nofun⟩
  | cons payload rest ih =>
    obtain ⟨f, m, hcall, hout, haccepts, hpayload, hplain⟩ :=
      sendTextFrame_accepts (hlength payload List.mem_cons_self) hsend
    obtain ⟨s', bytes, frames, hcalls, hout', hdecodes, hpayloads, hplains⟩ :=
      ih (fun p hp => hlength p (List.mem_cons_of_mem _ hp)) haccepts
    refine ⟨s', f.encode ++ bytes, f :: frames, ?_, ?_, hdecodes.encode_append f, ?_, ?_⟩
    · rw [sendTextFrames, bind_of_ok hcall, bind_of_ok hcalls]
      rfl
    · rw [hout', hout, List.append_assoc]
    · rw [List.map_cons, hpayload, hpayloads]
    · intro g hg
      rcases List.mem_cons.mp hg with rfl | hg
      · exact hplain
      · exact hplains g hg

/-- A socket that takes one byte at a time. -/
def slowSocket : ClientSocket where
  incoming := []
  recvPlan _ := 1
  sendPlan _ := 1

theorem sendTextFrames_decode_slow : ∃ s' bytes frames,
    sendTextFrames [[], [0x41, 0x42]] slowSocket = .ok [true, true] s' ∧
      s'.outgoing = [] ++ bytes ∧ Decodes bytes frames ∧
      frames.map RawFrame.payload = [[], [0x41, 0x42]] ∧ ∀ f ∈ frames, PlainTextFrame f :=
  sendTextFrames_decode (by decide) fun _ => le_refl 1

/-! ### Client frames -/

/-- A `recv` that is not cut short fills its array. -/
theorem recvInto_whole {n : Nat} (hn : n ≠ 0) (buffer : Fin n → UInt8) {s : ClientSocket}
    {bytes rest : List UInt8} (hin : s.incoming = bytes ++ rest) (hlen : bytes.length = n)
    (hwhole : s.RecvsWhole n) :
    ∃ filled, recvInto buffer s = .ok filled (s.received n) ∧ List.ofFn filled = bytes ∧
      (s.received n).incoming = rest := by
  subst hlen
  have hmin : min (s.recvPlan 0) bytes.length = bytes.length := by
    rw [ClientSocket.RecvsWhole, hin, List.length_append] at hwhole
    omega
  have htake : s.incoming.take bytes.length = bytes := by rw [hin, List.take_left]
  have hne : bytes ≠ [] := fun he => hn (by rw [he]; rfl)
  have hrecv : recv bytes.length s = .ok ⟨bytes, hne⟩ (s.received bytes.length) := by
    simp [recv, hmin, htake, hne]
  refine ⟨fun i => bytes.getD i (buffer i), ?_, ?_, ?_⟩
  · rw [recvInto, bind_of_ok hrecv]
    rfl
  · apply List.ext_getElem
    · simp
    · intro i _ _
      simp [List.getD_eq_getElem?_getD]
  · rw [ClientSocket.received, hin, List.drop_left]

theorem form_cases {f : RawFrame} {payloadLen : UInt8}
    (h : payloadLen.toNat = f.form.announce f.payload.length) :
    (f.form = .bits7 ∧ payloadLen ≠ 126 ∧ payloadLen ≠ 127 ∧ payloadLen.toNat = f.payload.length) ∨
      (f.form = .bits16 ∧ payloadLen = 126) ∨ (f.form = .bits64 ∧ payloadLen = 127) := by
  have hfits := f.fits
  cases hform : f.form with
  | bits7 =>
    rw [hform] at h hfits
    have hlen : payloadLen.toNat = f.payload.length := h
    have hlt : f.payload.length < 126 := hfits
    refine .inl ⟨rfl, fun he => ?_, fun he => ?_, hlen⟩
    · rw [he] at hlen
      exact absurd hlen.symm hlt.ne
    · rw [he] at hlen
      exact absurd hlt (by rw [← hlen]; decide)
  | bits16 =>
    rw [hform] at h
    exact .inr (.inl ⟨rfl, UInt8.toNat_inj.mp h⟩)
  | bits64 =>
    rw [hform] at h
    exact .inr (.inr ⟨rfl, UInt8.toNat_inj.mp h⟩)

theorem recvLength_reads {f : RawFrame} {env : PollEnv} {payloadLen : UInt8} {s : ClientSocket}
    {rest : List UInt8} (h : payloadLen.toNat = f.form.announce f.payload.length)
    (hin : s.incoming = BigEndian.encode f.form.size f.payload.length ++ rest)
    (hwhole : s.RecvsWhole (extSize payloadLen)) (hflows : s.Flows) :
    ∃ len s', recvLength env payloadLen s = .ok len s' ∧ len.toNat = f.payload.length ∧
      s'.incoming = rest ∧ s'.Flows := by
  have hfits := f.fits
  have hlen := BigEndian.length_encode f.form.size f.payload.length
  rcases form_cases h with ⟨hform, h126, h127, hshort⟩ | ⟨hform, rfl⟩ | ⟨hform, rfl⟩
  · rw [hform] at hin
    refine ⟨payloadLen.toUInt64, s, ?_, ?_, hin, hflows⟩
    · rw [recvLength, if_neg h126, if_neg h127]
      rfl
    · rw [UInt8.toNat_toUInt64, hshort]
  · rw [hform] at hfits hin hlen
    obtain ⟨ext, hrecv, hext, hrest⟩ := recvInto_whole (by decide) env.ext16 hin hlen hwhole
    refine ⟨_, _, bind_eq_ok.mpr ⟨_, _, hrecv, rfl⟩, ?_, hrest, hflows.received _⟩
    have hvalue : BigEndian.value (List.ofFn ext) = f.payload.length := by
      rw [hext]
      exact (BigEndian.value_encode 2 _).trans (Nat.mod_eq_of_lt hfits)
    have hread := (BigEndian.foldl_shift_or (List.ofFn ext) (by simp)).trans hvalue
    simpa [List.ofFn_succ] using hread
  · rw [hform] at hfits hin hlen
    obtain ⟨ext, hrecv, hext, hrest⟩ := recvInto_whole (by decide) env.ext64 hin hlen hwhole
    refine ⟨_, _, bind_eq_ok.mpr ⟨_, _, hrecv, rfl⟩, ?_, hrest, hflows.received _⟩
    have hvalue : BigEndian.value (List.ofFn ext) = f.payload.length := by
      rw [hext]
      exact (BigEndian.value_encode 8 _).trans (Nat.mod_eq_of_lt hfits)
    exact (BigEndian.foldl_shift_or (List.ofFn ext) (by simp)).trans hvalue

theorem recvMaskKey_reads {key : Option MaskKey} {s : ClientSocket} {rest : List UInt8}
    (hin : s.incoming = (match key with | none => [] | some key => List.ofFn key) ++ rest)
    (hwhole : key.isSome → s.RecvsWhole 4) (hflows : s.Flows) :
    ∃ s', recvMaskKey key.isSome s = .ok (key.getD fun _ => 0) s' ∧ s'.incoming = rest ∧
      s'.Flows := by
  cases key with
  | none => exact ⟨s, rfl, hin, hflows⟩
  | some key =>
    obtain ⟨filled, hrecv, hfilled, hrest⟩ :=
      recvInto_whole (by decide) (fun _ => 0) hin List.length_ofFn (hwhole rfl)
    obtain rfl : filled = key := List.ofFn_injective hfilled
    exact ⟨_, hrecv, hrest, hflows.received 4⟩

theorem recvVector_reads {heap : Heap} {bytes rest : List UInt8} {len : UInt64} {s : ClientSocket}
    (hlen : len.toNat = bytes.length) (hshort : bytes.length < 2 ^ 31)
    (hmemory : heap.allocates bytes.length = true) (hin : s.incoming = bytes ++ rest)
    (hflows : s.Flows) : ∃ s', recvVector heap len s = .ok bytes s' ∧ s'.incoming = rest := by
  have hmax : ¬ vectorMaxSize < len.toNat := by
    have : vectorMaxSize = 2 ^ 63 - 1 := rfl
    omega
  rw [recvVector, if_neg hmax, hlen, if_pos hmemory]
  rcases recvPayload_cases hflows bytes.length with ⟨_, _, s', hok, hrest, _⟩ | ⟨hbad, _⟩
  · rw [hin, List.take_left] at hok
    rw [hin, List.drop_left] at hrest
    exact ⟨s', hok, hrest⟩
  · rw [hin, List.length_append] at hbad
    omega

theorem header_first (f : RawFrame) : f.first &&& 0x0F = UInt8.ofNat f.opcode := by
  have hopcode := f.opcode.isLt
  apply UInt8.toNat_inj.mp
  rw [UInt8.toNat_and, RawFrame.toNat_first, UInt8.toNat_ofNat', Nat.mod_eq_of_lt (by omega)]
  show _ &&& 15 = f.opcode.val
  rw [Nat.and_two_pow_sub_one_eq_mod _ 4]
  omega

theorem header_announce (f : RawFrame) :
    (f.second &&& 0x7F).toNat = f.form.announce f.payload.length := by
  rw [UInt8.toNat_and, ← RawFrame.second_mod]
  exact Nat.and_two_pow_sub_one_eq_mod _ 7

theorem header_masked (f : RawFrame) : (f.second &&& 0x80 != 0) = f.maskKey.isSome := by
  rw [Bool.eq_iff_iff, ← RawFrame.second_top, bne_iff_ne, ne_eq, ← UInt8.toNat_inj,
    UInt8.toNat_and]
  have hlt := f.second.toNat_lt
  have hbit : f.second.toNat &&& 2 ^ 7 = (f.second.toNat.testBit 7).toNat * 2 ^ 7 :=
    Nat.and_two_pow _ 7
  show ¬ f.second.toNat &&& 2 ^ 7 = 0 ↔ _
  rw [hbit, Nat.testBit_eq_decide_div_mod_eq]
  simp only [Nat.reducePow, Nat.mul_eq_zero, Bool.toNat_eq_zero, decide_eq_false_iff_not]
  omega

/-- What comes before the payload is read as it was written. -/
theorem header_reads {f : RawFrame} {env : PollEnv} {s : ClientSocket} {rest : List UInt8}
    (hin : s.incoming = f.encode ++ rest) (hwhole : HeaderWhole env s) (hflows : s.Flows) :
    ∃ header s₁ len s₂ s₃, recvInto env.header s = .ok header s₁ ∧
      recvLength env (header 1 &&& 0x7F) s₁ = .ok len s₂ ∧
      recvMaskKey (header 1 &&& 0x80 != 0) s₂ = .ok (f.maskKey.getD fun _ => 0) s₃ ∧
      header 0 = f.first ∧ header 1 = f.second ∧ len.toNat = f.payload.length ∧
      s₃.incoming = applyKey f.maskKey f.payload ++ rest ∧ s₃.Flows := by
  have hheader : s.incoming = [f.first, f.second] ++ (BigEndian.encode f.form.size f.payload.length ++
      (f.keyBytes ++ (applyKey f.maskKey f.payload ++ rest))) := by
    simp [hin, RawFrame.encode]
  obtain ⟨hfirst, hlater⟩ := hwhole
  obtain ⟨header, hrecv, hfilled, hrest⟩ :=
    recvInto_whole (by decide) env.header hheader rfl hfirst
  obtain ⟨h0, h1⟩ : header 0 = f.first ∧ header 1 = f.second := by
    simpa [List.ofFn_succ] using hfilled
  obtain ⟨hext, hkey⟩ := hlater header _ hrecv
  rw [h1] at hext hkey
  obtain ⟨len, s₂, hlen, hvalue, hrest₂, hflows₂⟩ :=
    @recvLength_reads f env _ _ _ (header_announce f) hrest hext (hflows.received 2)
  have hbit : f.maskKey.isSome → f.second &&& 0x80 ≠ 0 := fun hsome =>
    bne_iff_ne.mp ((header_masked f).trans hsome)
  obtain ⟨s₃, hmask, hrest₃, hflows₃⟩ :=
    recvMaskKey_reads hrest₂ (fun hsome => hkey len s₂ hlen (hbit hsome)) hflows₂
  exact ⟨header, _, len, s₂, s₃, hrecv, h1 ▸ hlen, h1 ▸ (header_masked f).symm ▸ hmask, h0, h1, hvalue,
    hrest₃, hflows₃⟩

/-- The bytes of one frame are taken off the stream, and its payload comes out
unmasked. -/
theorem recvFrame_reads {f : RawFrame} {env : PollEnv} {s : ClientSocket} {rest : List UInt8}
    (hshort : f.payload.length < 2 ^ 31) (hmemory : env.heap.allocates f.payload.length = true)
    (hin : s.incoming = f.encode ++ rest) (hwhole : HeaderWhole env s) (hflows : s.Flows) :
    ∃ s', recvFrame env s = .ok ⟨UInt8.ofNat f.opcode, f.payload⟩ s' ∧ s'.incoming = rest := by
  obtain ⟨header, s₁, len, s₂, s₃, hrecv, hlen, hkey, h0, h1, hvalue, hrest₃, hflows₃⟩ :=
    header_reads hin hwhole hflows
  have hwire : len.toNat = (applyKey f.maskKey f.payload).length := by
    rw [hvalue, length_applyKey]
  obtain ⟨s₄, hvector, hrest₄⟩ := recvVector_reads hwire (by rwa [length_applyKey])
    (by rwa [length_applyKey]) hrest₃ hflows₃
  refine ⟨s₄, ?_, hrest₄⟩
  have hpayload : (if f.maskKey.isSome then unmask (f.maskKey.getD fun _ => 0)
      (applyKey f.maskKey f.payload) else applyKey f.maskKey f.payload) = f.payload := by
    cases f.maskKey with
    | none => rfl
    | some key => exact mask_mask key f.payload
  rw [recvFrame_ok hrecv hlen hkey hvector, h0, h1, header_first, header_masked, hpayload]

theorem answerFrame_incoming {heap : Heap} {frame : ClientFrame} {s s' : ClientSocket}
    {result : PollResult} (h : answerFrame heap frame s = .ok result s') :
    s'.incoming = s.incoming := by
  rw [answerFrame] at h
  split at h
  · obtain ⟨_, rfl⟩ := EStateM.Result.ok.inj h
    obtain ⟨_, _, _, hin, _⟩ := sendAll_prefix (controlFrame 0x8 []) s
    exact hin
  · split at h
    · split at h
      · obtain ⟨_, rfl⟩ := EStateM.Result.ok.inj h
        obtain ⟨_, _, _, hin, _⟩ := sendAll_prefix (controlFrame 0xA frame.payload) s
        exact hin
      · cases h
    · obtain ⟨_, rfl⟩ := EStateM.Result.ok.inj h
      rfl

/-- There is memory for the payload of `f` and, if it is a ping, for its pong. -/
def Heap.HasRoom (heap : Heap) (f : RawFrame) : Prop :=
  heap.allocates f.payload.length = true ∧
    (f.opcode = 9 → heap.allocates (f.payload.length + 2) = true)

theorem opcode_eq_iff (f : RawFrame) (n : Fin 16) :
    UInt8.ofNat f.opcode = UInt8.ofNat n ↔ f.opcode = n := by
  have hf := f.opcode.isLt
  have hn := n.isLt
  rw [← UInt8.toNat_inj, UInt8.toNat_ofNat', UInt8.toNat_ofNat', Nat.mod_eq_of_lt (by omega),
    Nat.mod_eq_of_lt (by omega), Fin.ext_iff]

theorem answerFrame_hasRoom {f : RawFrame} {heap : Heap} (h : heap.HasRoom f) (s : ClientSocket) :
    ∃ result s', answerFrame heap ⟨UInt8.ofNat f.opcode, f.payload⟩ s = .ok result s' ∧
      (f.opcode = 9 → s' = sendControlFrame 0xA f.payload s) := by
  by_cases h8 : f.opcode = 8
  · refine ⟨.closed, sendControlFrame 0x8 [] s, if_pos ((opcode_eq_iff f 8).mpr h8), fun h9 => ?_⟩
    rw [h8] at h9
    exact absurd h9 (by decide)
  · have hno : ¬ UInt8.ofNat f.opcode = 0x8 := fun he => h8 ((opcode_eq_iff f 8).mp he)
    by_cases h9 : f.opcode = 9
    · have hping : UInt8.ofNat f.opcode = 0x9 := (opcode_eq_iff f 9).mpr h9
      refine ⟨.handled, _, ?_, fun _ => rfl⟩
      rw [answerFrame, if_neg hno, if_pos hping]
      exact if_pos (h.2 h9)
    · refine ⟨.handled, s, ?_, fun hping => absurd hping h9⟩
      rw [answerFrame, if_neg hno]
      exact if_neg fun he => h9 ((opcode_eq_iff f 9).mp he)

def pongOf (payload : List UInt8) (h : payload.length ≤ 125) : RawFrame :=
  ⟨true, 0, 10, none, .bits7, payload, Nat.lt_succ_of_le h⟩

theorem controlFrame_pong {payload : List UInt8} (h : payload.length ≤ 125) :
    controlFrame 0xA payload = (pongOf payload h).encode := by
  have hframe : controlFrame 0xA payload = Frame.encode ⟨true, .pong, payload, _, _⟩ :=
    controlFrame_eq .pong h
  have hraw : Frame.raw ⟨true, .pong, payload, by omega, fun _ => ⟨rfl, h⟩⟩ = pongOf payload h := by
    have hform : LengthForm.shortest payload.length = .bits7 := if_pos (Nat.lt_succ_of_le h)
    rw [Frame.raw, pongOf]
    congr 1
  rw [hframe, ← hraw, Frame.encode_raw]

theorem length_pongOf {payload : List UInt8} (h : payload.length ≤ 125) :
    (pongOf payload h).encode.length = payload.length + 2 := by
  simp [RawFrame.encode, pongOf, RawFrame.keyBytes, LengthForm.size, BigEndian.encode, applyKey]

/-- One call takes exactly one frame off the stream, whatever the frame is, and
recovers its payload; a ping is answered with its payload in one pong, which is
cut short only if `send` fails. -/
theorem pollClientFrame_reads {f : RawFrame} {env : PollEnv} {s : ClientSocket} {rest : List UInt8}
    (hready : env.ready = true) (hshort : f.payload.length < 2 ^ 31) (hroom : env.heap.HasRoom f)
    (hin : s.incoming = f.encode ++ rest) (hwhole : HeaderWhole env s) (hflows : s.Flows) :
    ∃ result s' m, pollClientFrame env s = .ok result s' ∧ s'.incoming = rest ∧
      recvFrame env s = .ok ⟨UInt8.ofNat f.opcode, f.payload⟩ m ∧
      (f.opcode = 9 → ∀ h : f.payload.length ≤ 125, ∃ sent, s'.outgoing = s.outgoing ++ sent ∧
        sent <+: (pongOf f.payload h).encode ∧
        ((∀ k, 1 ≤ s.sendPlan k) → Decodes sent [pongOf f.payload h])) := by
  obtain ⟨m, hrecv, hrest⟩ := recvFrame_reads hshort hroom.1 hin hwhole hflows
  obtain ⟨result, s', hanswer, hpong⟩ := answerFrame_hasRoom hroom m
  refine ⟨result, s', m, (pollClientFrame_ok hready hrecv).trans hanswer, ?_, hrecv, ?_⟩
  · rw [answerFrame_incoming hanswer, hrest]
  · intro hping h
    obtain ⟨hplan, hout⟩ := Prod.mk.inj ((recvFrame_sending env).ok hrecv)
    have hsent : s' = (sendAll (pongOf f.payload h).encode m).2 := by
      rw [← controlFrame_pong, hpong hping]
      rfl
    obtain ⟨k, hk, _⟩ := sendAll_prefix (pongOf f.payload h).encode m
    refine ⟨_, ?_, List.take_prefix k _, fun haccepts => ?_⟩
    · rw [hsent, hk, hout]
    · have hlength : (pongOf f.payload h).encode.length < 2 ^ 32 := by
        rw [length_pongOf]
        omega
      have hm : m.Accepts := fun j => by
        rw [hplan]
        exact haccepts j
      obtain ⟨_, hall, _⟩ := sendAll_accepts hlength hm
      rw [hk, List.append_cancel_left_eq] at hall
      rw [hall]
      have hone := Decodes.nil.encode_append (pongOf f.payload h)
      rwa [List.append_nil] at hone

def maskedPing : RawFrame :=
  ⟨true, 0, 9, some ![1, 2, 3, 4], .bits7, [0x41, 0x42], by decide⟩

/-- A masked ping with the first byte of the next frame behind it. -/
def pingingClient : ClientSocket where
  incoming := maskedPing.encode ++ [0x81]
  recvPlan _ := 4
  sendPlan _ := 1

theorem headerWhole_pingingClient : HeaderWhole zeroPoll pingingClient := by
  have hheader : recvInto zeroPoll.header pingingClient =
      .ok (fun i => [0x89, 0x82].getD i.val 0) (pingingClient.received 2) := rfl
  refine ⟨(by decide : min 2 9 ≤ 4), fun header s₁ h => ?_⟩
  obtain ⟨rfl, rfl⟩ := EStateM.Result.ok.inj (hheader.symm.trans h)
  refine ⟨(by decide : min 0 7 ≤ 4), fun len s₂ hlen _ => ?_⟩
  have hnone : recvLength zeroPoll 2 (pingingClient.received 2) =
      .ok 2 (pingingClient.received 2) := rfl
  obtain ⟨_, rfl⟩ := EStateM.Result.ok.inj (hnone.symm.trans hlen)
  exact (by decide : min 4 7 ≤ 4)

theorem pollClientFrame_reads_ping : ∃ result s' m,
    pollClientFrame zeroPoll pingingClient = .ok result s' ∧ s'.incoming = [0x81] ∧
      recvFrame zeroPoll pingingClient = .ok ⟨9, [0x41, 0x42]⟩ m ∧
      ∃ sent, s'.outgoing = [] ++ sent ∧ Decodes sent [pongOf [0x41, 0x42] (by decide)] := by
  obtain ⟨result, s', m, hpoll, hrest, hrecv, hping⟩ := pollClientFrame_reads (f := maskedPing)
    rfl (by decide) ⟨rfl, fun _ => rfl⟩ rfl headerWhole_pingingClient fun _ => (by decide : 1 ≤ 4)
  obtain ⟨sent, hout, _, hdecodes⟩ := hping rfl (by decide)
  exact ⟨result, s', m, hpoll, hrest, hrecv, sent, hout, hdecodes fun _ => le_refl 1⟩

end Openaslc
