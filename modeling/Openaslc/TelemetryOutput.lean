import Openaslc.TelemetryServer

/-! What `client_loop` writes, read as a stream of RFC 6455 frames. -/

namespace Openaslc

open StateExcept WebSocket

/-! ### The length of a telemetry text -/

theorem length_commas {texts : List String} {m : Nat} (h : ∀ t ∈ texts, t.toList.length ≤ m) :
    (",".intercalate texts).toList.length ≤ texts.length * (m + 1) := by
  induction texts with
  | nil => simp
  | cons t texts ih =>
    have ht := h t List.mem_cons_self
    have hrest := ih fun u hu => h u (List.mem_cons_of_mem t hu)
    cases texts with
    | nil =>
      rw [String.intercalate_singleton]
      simpa using Nat.le_succ_of_le ht
    | cons u texts =>
      rw [String.intercalate_cons_cons]
      simp only [String.toList_append, List.length_append, List.length_cons] at hrest ⊢
      have hcomma : ",".toList.length = 1 := rfl
      have hmul : (texts.length + 1 + 1) * (m + 1) = (texts.length + 1) * (m + 1) + (m + 1) := by
        ring
      omega

theorem length_number (n : UInt64) : (plainText (.numberUnsigned n)).toList.length ≤ 20 := by
  have hn := n.toNat_lt
  rw [plainText, Nat.toString_eq_ofList_toDigits, String.toList_ofList,
    Nat.length_toDigits_le_iff (by omega) (by omega)]
  exact hn.trans (by norm_num)

theorem plainTexts_eq (elements : List Json) : plainTexts elements = elements.map plainText := by
  induction elements with
  | nil => rfl
  | cons element rest ih => rw [plainTexts, ih, List.map_cons]

theorem length_numbers (bytes : List UInt8) :
    (plainText (.array (bytes.map fun byte => .numberUnsigned byte.toUInt64))).toList.length ≤
      21 * bytes.length + 2 := by
  have hall : ∀ t ∈ plainTexts (bytes.map fun byte => .numberUnsigned byte.toUInt64),
      t.toList.length ≤ 20 := by
    intro t ht
    rw [plainTexts_eq, List.map_map] at ht
    obtain ⟨byte, _, rfl⟩ := List.mem_map.mp ht
    exact length_number _
  have hlen := length_commas hall
  rw [plainTexts_eq, List.length_map, List.length_map] at hlen
  rw [plainText, plainTexts_eq]
  simp only [String.toList_append, List.length_append]
  have hopen : "[".toList.length = 1 := rfl
  have hclose : "]".toList.length = 1 := rfl
  omega

theorem length_areaSnapshot (mem : MemoryMap) (area : MemoryArea) :
    (areaSnapshot mem area).length ≤ 1024 := by
  rw [areaSnapshot, List.length_ofFn]
  exact getSize_le area

theorem length_telemetryText_short (tick : Tick) (sequence : UInt64) :
    (telemetryText tick sequence).length < 2 ^ 16 := by
  have hi := length_numbers (areaSnapshot tick.atInput .input)
  have hq := length_numbers (areaSnapshot tick.atOutput .output)
  have hs := length_number sequence
  have hin := length_areaSnapshot tick.atInput .input
  have hout := length_areaSnapshot tick.atOutput .output
  rw [telemetryText, stringBytes, List.length_map, telemetryMessage, plainText]
  simp only [plainMembers, String.intercalate_cons_cons, String.intercalate_singleton,
    String.toList_append, List.length_append]
  have h1 : "\x7b".toList.length = 1 := rfl
  have h2 : "\x7d".toList.length = 1 := rfl
  have h3 : "\"".toList.length = 1 := rfl
  have h4 : "I".toList.length = 1 := rfl
  have h5 : "Q".toList.length = 1 := rfl
  have h6 : "seq".toList.length = 3 := rfl
  have h7 : "\":".toList.length = 2 := rfl
  have h8 : ",".toList.length = 1 := rfl
  omega

theorem length_telemetryText (tick : Tick) (sequence : UInt64) :
    (telemetryText tick sequence).length < 2 ^ 63 :=
  (length_telemetryText_short tick sequence).trans (by norm_num)

/-! ### Frames -/

def textOf (payload : List UInt8) (h : payload.length < 2 ^ 63) : Frame :=
  ⟨true, .text, payload, h, nofun⟩

theorem textFrame_eq {payload : List UInt8} (h : payload.length < 2 ^ 63) :
    textFrame payload = (textOf payload h).encode := by
  have hlen : (UInt64.ofNat payload.length).toNat = payload.length := by
    rw [UInt64.toNat_ofNat', Nat.mod_eq_of_lt (by omega)]
  have hbyte : ∀ i : UInt64, i.toNat < 8 →
      ((UInt64.ofNat payload.length >>> (i * 8)) &&& 0xFF).toUInt8 =
        UInt8.ofNat (payload.length / 256 ^ i.toNat) := by
    intro i hi
    rw [BigEndian.toUInt8_shift _ i hi, hlen]
  have hsmall : UInt64.ofNat payload.length < 126 ↔ payload.length < 126 := by
    rw [UInt64.lt_iff_toNat_lt, hlen]
    rfl
  have hmedium : UInt64.ofNat payload.length ≤ 0xFFFF ↔ payload.length < 2 ^ 16 := by
    rw [UInt64.le_iff_toNat_le, hlen]
    exact Nat.lt_succ_iff.symm
  rw [textFrame, textOf, Frame.encode, declare]
  simp only [hsmall, hmedium]
  congr 2
  split
  · have hlow : (UInt64.ofNat payload.length).toUInt8 = UInt8.ofNat payload.length := by
      rw [← UInt8.toNat_inj, UInt64.toNat_toUInt8, UInt8.toNat_ofNat', hlen]
    rw [hlow]
  · split
    · have h1 := hbyte 1 (by decide)
      have h0 := hbyte 0 (by decide)
      rw [UInt64.zero_mul, UInt64.shiftRight_zero] at h0
      rw [h0]
      exact congrArg (fun b => [126, b, _]) h1
    · simp only [List.map_cons, List.map_nil]
      rw [hbyte 7 (by decide), hbyte 6 (by decide), hbyte 5 (by decide), hbyte 4 (by decide),
        hbyte 3 (by decide), hbyte 2 (by decide), hbyte 1 (by decide), hbyte 0 (by decide)]
      rfl

/-! ### What a turn puts out -/

theorem controlFrame_eq (opcode : Opcode) {payload : List UInt8}
    (h : payload.length ≤ 125) : controlFrame opcode.code payload =
      (Frame.mk true opcode payload (by omega) fun _ => ⟨rfl, h⟩).encode := by
  have hlow : (UInt64.ofNat payload.length &&& 0x7F).toUInt8 = UInt8.ofNat payload.length := by
    apply UInt8.toNat_inj.mp
    rw [UInt64.toNat_toUInt8, UInt64.toNat_and, UInt64.toNat_ofNat', UInt8.toNat_ofNat']
    show (payload.length % 2 ^ 64 &&& 127) % 2 ^ 8 = _
    rw [Nat.and_two_pow_sub_one_eq_mod _ 7]
    omega
  rw [controlFrame, hlow, Frame.encode, declare, if_pos (by omega : payload.length < 126)]
  rfl

/-- A pong that is sent at all has at most 125 bytes, and the send after one
that is cut short fails too. -/
def PongIntact (env : PollEnv) (s : ClientSocket) : Prop :=
  ∀ frame s', env.ready = true → recvFrame env s = .ok frame s' → frame.opcode = 0x9 →
    env.heap.allocates (frame.payload.length + 2) = true →
    s.sendPlan 0 = 0 ∨ frame.payload.length ≤ 125 ∧
      ((sendAll (controlFrame 0xA frame.payload) s').1 = true ∨
        (sendControlFrame 0xA frame.payload s').sendPlan 0 = 0)

theorem recvLength_sending (env : PollEnv) (payloadLen : UInt8) :
    Preserves ClientSocket.sending (recvLength env payloadLen) := by
  rw [recvLength]
  split
  · exact (recvInto_sending _).bind fun _ => Preserves.pure _ _
  · split
    · exact (recvInto_sending _).bind fun _ => Preserves.pure _ _
    · exact Preserves.pure _ _

theorem recvMaskKey_sending (masked : Bool) :
    Preserves ClientSocket.sending (recvMaskKey masked) := by
  rw [recvMaskKey]
  split
  · exact recvInto_sending _
  · exact Preserves.pure _ _

theorem recvVector_sending (heap : Heap) (payloadLen : UInt64) :
    Preserves ClientSocket.sending (recvVector heap payloadLen) := by
  rw [recvVector]
  split
  · exact Preserves.throw _ _
  · split
    · exact recvPayload_sending _
    · exact Preserves.throw _ _

theorem recvFrame_sending (env : PollEnv) : Preserves ClientSocket.sending (recvFrame env) :=
  (recvInto_sending env.header).bind fun _ =>
    (recvLength_sending env _).bind fun len =>
      (recvMaskKey_sending _).bind fun _ =>
        (recvVector_sending env.heap len).bind fun _ => Preserves.pure _ _

/-- After a poll: complete frames are out, or the loop ends, or a cut frame is
the last that the socket takes. -/
def PollOutput : EStateM.Result Exception ClientSocket PollResult → Prop
  | .ok .closed s => WellFormed s.outgoing
  | .ok _ s => Complete s.outgoing ∨ WellFormed s.outgoing ∧ s.sendPlan 0 = 0
  | .error _ s => Complete s.outgoing

theorem sendAll_encode {f : Frame} {s : ClientSocket} (hout : Complete s.outgoing) :
    WellFormed (sendAll f.encode s).2.outgoing ∧
      ((sendAll f.encode s).1 = true → Complete (sendAll f.encode s).2.outgoing) := by
  obtain ⟨k, hk, hall, _⟩ := sendAll_prefix f.encode s
  constructor
  · rw [hk]
    exact hout.cut f k
  · intro hok
    rw [hk, hall hok]
    exact hout.append f

theorem answerFrame_output {heap : Heap} {frame : ClientFrame} {s : ClientSocket} (hout : Complete s.outgoing)
    (hpong : frame.opcode = 0x9 → heap.allocates (frame.payload.length + 2) = true →
      s.sendPlan 0 = 0 ∨ frame.payload.length ≤ 125 ∧
      ((sendAll (controlFrame 0xA frame.payload) s).1 = true ∨
        (sendControlFrame 0xA frame.payload s).sendPlan 0 = 0)) :
    PollOutput (answerFrame heap frame s) := by
  rw [answerFrame]
  by_cases hclose : frame.opcode = 0x8
  · rw [if_pos hclose]
    have hreply : controlFrame 0x8 [] = Frame.encode ⟨true, .close, [], _, _⟩ :=
      controlFrame_eq .close (by simp)
    show WellFormed (sendAll (controlFrame 0x8 []) s).2.outgoing
    rw [hreply]
    exact (sendAll_encode hout).1
  rw [if_neg hclose]
  by_cases hping : frame.opcode = 0x9
  · rw [if_pos hping]
    by_cases hmemory : heap.allocates (frame.payload.length + 2) = true
    · rw [if_pos hmemory]
      rcases hpong hping hmemory with hrefused | ⟨hlength, hsent⟩
      · have hnil : controlFrame 0xA frame.payload ≠ [] := List.cons_ne_nil _ _
        left
        rw [sendControlFrame, sendAll_refused s hnil hrefused]
        simpa [ClientSocket.sent] using hout
      · have hframe : controlFrame 0xA frame.payload =
            Frame.encode ⟨true, .pong, frame.payload, _, _⟩ := controlFrame_eq .pong hlength
        have hpongs := sendAll_encode (f := ⟨true, .pong, frame.payload, by omega,
          fun _ => ⟨rfl, hlength⟩⟩) hout
        rw [← hframe] at hpongs
        rcases hsent with hwhole | hlast
        · exact .inl (hpongs.2 hwhole)
        · exact .inr ⟨hpongs.1, hlast⟩
    · rw [if_neg hmemory]
      exact hout
  · rw [if_neg hping]
    exact .inl hout

theorem pollClientFrame_output {env : PollEnv} {s : ClientSocket} (hout : Complete s.outgoing)
    (hpong : PongIntact env s) : PollOutput (pollClientFrame env s) := by
  cases hready : env.ready with
  | false =>
    rw [pollClientFrame_idle hready]
    exact .inl hout
  | true =>
    cases hrecv : recvFrame env s with
    | ok frame s' =>
      obtain ⟨hplan, hsame⟩ := Prod.mk.inj ((recvFrame_sending env).ok hrecv)
      rw [pollClientFrame_ok hready hrecv]
      refine answerFrame_output (hsame ▸ hout) fun hping hmemory => ?_
      rw [hplan]
      exact hpong frame s' hready hrecv hping hmemory
    | error e s' =>
      obtain ⟨_, hsame⟩ := Prod.mk.inj ((recvFrame_sending env).error hrecv)
      cases e with
      | closed =>
        rw [pollClientFrame_closed hready hrecv]
        exact (hsame ▸ hout : Complete s'.outgoing).wellFormed
      | threw e =>
        rw [pollClientFrame_threw hready hrecv]
        exact (hsame ▸ hout : Complete s'.outgoing)

theorem clientTurn_output {tick : Tick} {s : ClientSocket} (sequence : UInt64)
    (hout : Complete s.outgoing) (hpong : PongIntact tick.poll s) :
    WellFormed (final (clientTurn tick sequence s)).outgoing ∧
      ∀ s', clientTurn tick sequence s = .ok true s' → Complete s'.outgoing := by
  have hpoll := pollClientFrame_output hout hpong
  cases h : pollClientFrame tick.poll s with
  | error e m =>
    rw [h] at hpoll
    rw [clientTurn_threw h]
    exact ⟨hpoll.wellFormed, nofun⟩
  | ok result m =>
    rw [h] at hpoll
    by_cases hclosed : result = .closed
    · subst hclosed
      rw [clientTurn_closed h]
      exact ⟨hpoll, nofun⟩
    · have hopen : Complete m.outgoing ∨ WellFormed m.outgoing ∧ m.sendPlan 0 = 0 := by
        cases result with
        | closed => exact absurd rfl hclosed
        | noData => exact hpoll
        | handled => exact hpoll
      rcases hopen with hcomplete | ⟨hwell, hrefused⟩
      · rw [clientTurn_sends h hclosed, textFrame_eq (length_telemetryText tick sequence)]
        have hsent := sendAll_encode (f := textOf _ (length_telemetryText tick sequence)) hcomplete
        refine ⟨hsent.1, fun s' hs' => ?_⟩
        obtain ⟨hok, hs'⟩ := EStateM.Result.ok.inj hs'
        exact hs' ▸ hsent.2 hok
      · rw [clientTurn_refused h hclosed hrefused]
        refine ⟨?_, nofun⟩
        simpa [final, ClientSocket.sent] using hwell

theorem clientLoop_output {ticks : List Tick} {sequence : UInt64} {s : ClientSocket}
    (hout : Complete s.outgoing) (hpong : ∀ p ∈ polls ticks sequence s, PongIntact p.1.poll p.2) :
    WellFormed (final (clientLoop ticks sequence s)).outgoing := by
  induction ticks generalizing sequence s with
  | nil => exact hout.wellFormed
  | cons tick rest ih =>
    rw [polls] at hpong
    obtain ⟨hwell, hgoes⟩ := clientTurn_output sequence hout
      (hpong (tick, s) List.mem_cons_self)
    rw [clientLoop]
    cases hturn : clientTurn tick sequence s with
    | error e m =>
      rw [hturn] at hwell
      rw [bind_of_error hturn]
      exact hwell
    | ok goesOn m =>
      rw [hturn] at hwell hpong
      rw [bind_of_ok hturn]
      cases goesOn with
      | false => exact hwell
      | true => exact ih (hgoes m hturn) fun p hp => hpong p (List.mem_cons_of_mem _ hp)

/-- From the end of the handshake on, `client_loop` writes complete frames and
at most one cut frame after them, if every poll leaves the pongs intact. -/
theorem clientLoop_wellFormed {ticks : List Tick} {sequence : UInt64} {s : ClientSocket}
    (hstart : s.outgoing = [])
    (hpong : ∀ p ∈ polls ticks sequence s, PongIntact p.1.poll p.2) :
    WellFormed (final (clientLoop ticks sequence s)).outgoing := by
  have hout : Complete s.outgoing := by
    rw [hstart]
    exact Complete.nil
  exact clientLoop_output hout hpong

/-! ### An empty ping -/

def emptyPing : ClientSocket where
  incoming := [0x89, 0x00]
  recvPlan _ := 2
  sendPlan _ := 10000

theorem clientLoop_wellFormed_emptyPing :
    WellFormed (final (clientLoop [⟨zeroPoll, {}, {}⟩] 0 emptyPing)).outgoing := by
  refine clientLoop_wellFormed rfl fun p hp => ?_
  have hpolls : polls [⟨zeroPoll, {}, {}⟩] 0 emptyPing = [(⟨zeroPoll, {}, {}⟩, emptyPing)] := by
    rw [polls]
    split <;> rfl
  rw [hpolls, List.mem_singleton] at hp
  subst hp
  intro frame s' _ hframe _ _
  have hnothing : recvPayload 0 (emptyPing.received 2) = .ok [] (emptyPing.received 2) := by
    rw [recvPayload]
    rfl
  have hheader : recvInto zeroPoll.header emptyPing =
      .ok (fun i => [0x89, 0x00].getD i.val 0) (emptyPing.received 2) := rfl
  have hlen : recvLength zeroPoll 0 (emptyPing.received 2) = .ok 0 (emptyPing.received 2) := rfl
  have hempty : recvFrame zeroPoll emptyPing = .ok ⟨0x9, []⟩ (emptyPing.received 2) :=
    recvFrame_ok hheader hlen rfl hnothing
  obtain ⟨rfl, rfl⟩ := EStateM.Result.ok.inj (hempty.symm.trans hframe)
  have hsent : sendAll (controlFrame 0xA []) (emptyPing.received 2) = (true, _) :=
    sendAll_whole (List.cons_ne_nil _ _) (by decide) (by decide)
  exact .inr ⟨by decide, .inl (by rw [hsent])⟩

/-! ### A ping of 126 bytes -/

/-- The ping comes in two parts after its header, the pong goes out whole, and
the send after it fails. -/
def longPing : ClientSocket where
  incoming := [0x89, 0x7E, 0x00, 0x7E] ++ List.replicate 126 0
  recvPlan _ := 100
  sendPlan k := if k = 0 then 128 else 0

theorem recvFrame_longPing : ∃ s', recvFrame zeroPoll longPing =
    .ok ⟨0x9, List.replicate 126 0⟩ s' ∧ s'.sending = longPing.sending := by
  have hheader : recvInto zeroPoll.header longPing =
      .ok (fun i => [0x89, 0x7E].getD i.val 0) (longPing.received 2) := rfl
  have hlen : recvLength zeroPoll 126 (longPing.received 2) =
      .ok 126 ((longPing.received 2).received 2) := rfl
  have hflows : ((longPing.received 2).received 2).Flows := fun k => by
    show 1 ≤ 100
    omega
  have hin : ((longPing.received 2).received 2).incoming = List.replicate 126 0 := rfl
  rcases recvPayload_cases hflows 126 with ⟨_, _, s', hpayload, _⟩ | ⟨hbad, _⟩
  · rw [hin, List.take_of_length_le (by simp)] at hpayload
    have hframe := recvFrame_ok hheader hlen rfl hpayload
    exact ⟨s', hframe, (recvFrame_sending zeroPoll).ok hframe⟩
  · rw [hin, List.length_replicate] at hbad
    omega

theorem clientLoop_longPing : longPing.outgoing = [] ∧
    ¬ WellFormed (final (clientLoop [⟨zeroPoll, {}, {}⟩] 0 longPing)).outgoing := by
  refine ⟨rfl, fun hwell => ?_⟩
  obtain ⟨s', hframe, hsending⟩ := recvFrame_longPing
  obtain ⟨hplan, hout⟩ := Prod.mk.inj hsending
  obtain ⟨pong, hpong⟩ : ∃ pong, pong = controlFrame 0xA (List.replicate 126 0) := ⟨_, rfl⟩
  have hlength : pong.length = 128 := by
    rw [hpong]
    simp [controlFrame]
  have hne : pong ≠ [] := List.ne_nil_of_length_pos (by omega)
  have hsent : sendAll pong s' = (true, s'.sent pong) :=
    sendAll_whole hne (by omega) (by rw [hplan, hlength]; decide)
  have hpoll : pollClientFrame zeroPoll longPing = .ok .handled (s'.sent pong) := by
    rw [pollClientFrame_ok rfl hframe]
    show EStateM.Result.ok PollResult.handled (sendAll (controlFrame 0xA _) s').2 = _
    rw [← hpong, hsent]
  have hrefused : (s'.sent pong).sendPlan 0 = 0 := by
    show s'.sendPlan 1 = 0
    rw [hplan]
    rfl
  have hturn : clientTurn ⟨zeroPoll, {}, {}⟩ 0 longPing = .ok false ((s'.sent pong).sent []) :=
    clientTurn_refused hpoll (by decide) hrefused 0
  rw [clientLoop, bind_of_ok hturn] at hwell
  have heq : ((s'.sent pong).sent []).outgoing = 0x8A :: 0x7E :: List.replicate 126 0 := by
    show s'.outgoing ++ pong ++ [] = _
    rw [List.append_nil, hout, hpong, controlFrame, List.length_replicate]
    rfl
  have hsecond := WellFormed.second_le (heq ▸ hwell) (by decide)
  exact absurd hsecond (by decide)

end Openaslc
