import Openaslc.TelemetryServer

/-! What the server makes of a byte stream that TCP cuts anywhere, next to what
it makes of the same stream when no `recv` is cut short. -/

namespace Openaslc

open StateExcept

/-- `t` receives what `s` receives, each `recv` as much as it asks for. -/
structure Resegments (s t : ClientSocket) : Prop where
  incoming : s.incoming = t.incoming
  sending : s.sending = t.sending
  flows : s.Flows
  full : ∀ k, 2 ^ 31 ≤ t.recvPlan k

def SameSending (s t : ClientSocket) : Prop := s.sending = t.sending

/-- The next `recv` returns all of `want` that the stream still holds. -/
def ClientSocket.RecvsWhole (s : ClientSocket) (want : Nat) : Prop :=
  min want s.incoming.length ≤ s.recvPlan 0

def extSize (payloadLen : UInt8) : Nat :=
  if payloadLen = 126 then 2 else if payloadLen = 127 then 8 else 0

/-- The header, the extended length and the mask key of the next frame each
come in one piece. -/
def HeaderWhole (env : PollEnv) (s : ClientSocket) : Prop :=
  s.RecvsWhole 2 ∧ ∀ header s₁, recvInto env.header s = .ok header s₁ →
    s₁.RecvsWhole (extSize (header 1 &&& 0x7F)) ∧
    ∀ len s₂, recvLength env (header 1 &&& 0x7F) s₁ = .ok len s₂ →
      header 1 &&& 0x80 ≠ 0 → s₂.RecvsWhole 4

def frameAt (p : Tick × ClientSocket) : Option ClientFrame :=
  if p.1.poll.ready then
    match recvFrame p.1.poll p.2 with
    | .ok frame _ => some frame
    | .error _ _ => none
  else none

def framesSeen (ticks : List Tick) (sequence : UInt64) (s : ClientSocket) : List ClientFrame :=
  (polls ticks sequence s).filterMap frameAt

/-! ### Reading a frame -/

theorem recv_alike {s t : ClientSocket} (h : Resegments s t) {want : Nat} (hwant : want ≤ 2 ^ 31)
    (hwhole : s.RecvsWhole want) : Alike (fun _ => Resegments) SameSending (recv want s) (recv want t) := by
  have hfull := h.full 0
  have hn : min (t.recvPlan 0) want = want := by omega
  obtain ⟨n, hs⟩ : ∃ n, n = min (s.recvPlan 0) want := ⟨_, rfl⟩
  have htake : s.incoming.take n = t.incoming.take want := by
    rw [← h.incoming, List.take_eq_take_iff]
    rw [ClientSocket.RecvsWhole] at hwhole
    omega
  have hdrop : s.incoming.drop n = t.incoming.drop want := by
    have hs := List.take_append_drop n s.incoming
    rw [htake] at hs
    have ht := List.take_append_drop want t.incoming
    rw [← h.incoming] at ht ⊢
    rw [← h.incoming] at hs
    exact List.append_cancel_left (hs.trans ht.symm)
  have hreceived : Resegments (s.received n) (t.received want) :=
    ⟨hdrop, h.sending, h.flows.received n, fun k => h.full (k + 1)⟩
  by_cases hempty : s.incoming.take n ≠ []
  · have hempty' : t.incoming.take want ≠ [] := htake ▸ hempty
    have hrs : recv want s = .ok ⟨s.incoming.take n, hempty⟩ (s.received n) := by
      subst hs
      exact dif_pos hempty
    have hrt : recv want t = .ok ⟨t.incoming.take want, hempty'⟩ (t.received want) := by
      simp only [recv, hn]
      exact dif_pos hempty'
    rw [hrs, hrt]
    exact ⟨Subtype.ext htake, hreceived⟩
  · have hempty' : ¬ t.incoming.take want ≠ [] := htake ▸ hempty
    have hrs : recv want s = .error .closed (s.received n) := by
      subst hs
      exact dif_neg hempty
    have hrt : recv want t = .error .closed (t.received want) := by
      simp only [recv, hn]
      exact dif_neg hempty'
    rw [hrs, hrt]
    exact ⟨rfl, hreceived.sending⟩

theorem recvInto_alike {s t : ClientSocket} (h : Resegments s t) {n : Nat} (hn : n ≤ 2 ^ 31)
    (buffer : Fin n → UInt8) (hwhole : s.RecvsWhole n) :
    Alike (fun _ => Resegments) SameSending (recvInto buffer s) (recvInto buffer t) :=
  (recv_alike h hn hwhole).bind fun _ _ _ _ hR => ⟨rfl, hR⟩

theorem recvLength_alike {s t : ClientSocket} (h : Resegments s t) (env : PollEnv)
    {payloadLen : UInt8} (hwhole : s.RecvsWhole (extSize payloadLen)) :
    Alike (fun _ => Resegments) SameSending (recvLength env payloadLen s) (recvLength env payloadLen t) := by
  simp only [recvLength]
  rw [extSize] at hwhole
  split
  · next h126 =>
    rw [if_pos h126] at hwhole
    exact (recvInto_alike h (by omega) env.ext16 hwhole).bind fun _ _ _ _ hR => ⟨rfl, hR⟩
  · next h126 =>
    rw [if_neg h126] at hwhole
    split
    · next h127 =>
      rw [if_pos h127] at hwhole
      exact (recvInto_alike h (by omega) env.ext64 hwhole).bind fun _ _ _ _ hR => ⟨rfl, hR⟩
    · exact ⟨rfl, h⟩

theorem recvMaskKey_alike {s t : ClientSocket} (h : Resegments s t) {masked : Bool}
    (hwhole : masked = true → s.RecvsWhole 4) :
    Alike (fun _ => Resegments) SameSending (recvMaskKey masked s) (recvMaskKey masked t) := by
  cases masked with
  | false => exact ⟨rfl, h⟩
  | true => exact recvInto_alike h (by omega) _ (hwhole rfl)

theorem recvPayload_alike {s t : ClientSocket} (h : Resegments s t) (n : Nat) :
    Alike (fun _ => Resegments) SameSending (recvPayload n s) (recvPayload n t) := by
  have hflows : t.Flows := fun k => (by omega : 1 ≤ 2 ^ 31).trans (h.full k)
  have hs := recvPayload_cases h.flows n
  have ht := recvPayload_cases hflows n
  rw [← h.incoming] at ht
  rcases hs with ⟨hlt, hle, s', hs, hin, j, hplan⟩ | ⟨hbad, s', hs⟩
  · rcases ht with ⟨_, _, t', ht, hin', j', hplan'⟩ | ⟨hbad, _⟩
    · rw [hs, ht]
      refine ⟨rfl, hin.trans hin'.symm, ?_, fun k => ?_, fun k => ?_⟩
      · exact ((recvPayload_sending n).ok hs).trans
          (h.sending.trans ((recvPayload_sending n).ok ht).symm)
      · rw [hplan]
        exact h.flows (k + j)
      · rw [hplan']
        exact h.full (k + j')
    · omega
  · rcases ht with ⟨_, _, _⟩ | ⟨_, t', ht⟩
    · omega
    · rw [hs, ht]
      exact ⟨rfl, ((recvPayload_sending n).error hs).trans
        (h.sending.trans ((recvPayload_sending n).error ht).symm)⟩

theorem recvVector_alike {s t : ClientSocket} (h : Resegments s t) (heap : Heap) (len : UInt64) :
    Alike (fun _ => Resegments) SameSending (recvVector heap len s) (recvVector heap len t) := by
  simp only [recvVector]
  split
  · exact ⟨rfl, h.sending⟩
  · split
    · exact recvPayload_alike h len.toNat
    · exact ⟨rfl, h.sending⟩

theorem recvFrame_alike {s t : ClientSocket} (h : Resegments s t) {env : PollEnv}
    (hwhole : HeaderWhole env s) :
    Alike (fun _ => Resegments) SameSending (recvFrame env s) (recvFrame env t) := by
  obtain ⟨hheader, hrest⟩ := hwhole
  refine (recvInto_alike h (by omega) env.header hheader).bind fun header s₁ t₁ h₁ hR₁ => ?_
  obtain ⟨hext, hmask⟩ := hrest header s₁ h₁
  refine (recvLength_alike hR₁ env hext).bind fun len s₂ t₂ h₂ hR₂ => ?_
  have hkey : (header 1 &&& 0x80 != 0) = true → s₂.RecvsWhole 4 := fun hmasked =>
    hmask len s₂ h₂ (bne_iff_ne.mp hmasked)
  refine (recvMaskKey_alike hR₂ hkey).bind fun maskKey s₃ t₃ _ hR₃ => ?_
  exact (recvVector_alike hR₃ env.heap len).bind fun _ _ _ _ hR₄ => ⟨rfl, hR₄⟩

/-! ### A turn and a run -/

theorem sendAll_alike {s t : ClientSocket} (h : Resegments s t) (data : List UInt8) :
    (sendAll data s).1 = (sendAll data t).1 ∧
      Resegments (sendAll data s).2 (sendAll data t).2 := by
  obtain ⟨hok, hsending⟩ := sendAll_congr data h.sending
  obtain ⟨_, _, _, hin, hplan⟩ := sendAll_prefix data s
  obtain ⟨_, _, _, hin', hplan'⟩ := sendAll_prefix data t
  refine ⟨hok, hin.trans (h.incoming.trans hin'.symm), hsending, fun k => ?_, fun k => ?_⟩
  · rw [hplan]
    exact h.flows k
  · rw [hplan']
    exact h.full k

def OpenAlike (a : PollResult) (s t : ClientSocket) : Prop :=
  s.sending = t.sending ∧ (a ≠ .closed → Resegments s t)

def GoesOnAlike (goesOn : Bool) (s t : ClientSocket) : Prop :=
  s.sending = t.sending ∧ (goesOn = true → Resegments s t)

theorem answerFrame_alike {s t : ClientSocket} (h : Resegments s t) (heap : Heap)
    (frame : ClientFrame) :
    Alike OpenAlike SameSending (answerFrame heap frame s) (answerFrame heap frame t) := by
  simp only [answerFrame]
  split
  · have hclose := (sendAll_alike h (controlFrame 0x8 [])).2
    exact ⟨rfl, hclose.sending, fun _ => hclose⟩
  · split
    · split
      · have hpong := (sendAll_alike h (controlFrame 0xA frame.payload)).2
        exact ⟨rfl, hpong.sending, fun _ => hpong⟩
      · exact ⟨rfl, h.sending⟩
    · exact ⟨rfl, h.sending, fun _ => h⟩

theorem pollClientFrame_alike {s t : ClientSocket} (h : Resegments s t) {env : PollEnv}
    (hwhole : env.ready = true → HeaderWhole env s) :
    Alike OpenAlike SameSending (pollClientFrame env s) (pollClientFrame env t) := by
  cases hready : env.ready with
  | false =>
    rw [pollClientFrame_idle hready, pollClientFrame_idle hready]
    exact ⟨rfl, h.sending, fun _ => h⟩
  | true =>
    rcases (recvFrame_alike h (hwhole hready)).cases with
      ⟨frame, s', t', hs, ht, hR⟩ | ⟨e, s', t', hs, ht, hQ⟩
    · rw [pollClientFrame_ok hready hs, pollClientFrame_ok hready ht]
      exact answerFrame_alike hR env.heap frame
    · cases e with
      | closed =>
        rw [pollClientFrame_closed hready hs, pollClientFrame_closed hready ht]
        exact ⟨rfl, hQ, fun hopen => absurd rfl hopen⟩
      | threw e =>
        rw [pollClientFrame_threw hready hs, pollClientFrame_threw hready ht]
        exact ⟨rfl, hQ⟩

theorem clientTurn_alike {s t : ClientSocket} (h : Resegments s t) {tick : Tick}
    (hwhole : tick.poll.ready = true → HeaderWhole tick.poll s) (sequence : UInt64) :
    Alike GoesOnAlike SameSending (clientTurn tick sequence s) (clientTurn tick sequence t) := by
  refine (pollClientFrame_alike h hwhole).bind fun result s' t' _ hR => ?_
  obtain ⟨hsending, hopen⟩ := hR
  by_cases hclosed : result = .closed
  · rw [if_pos hclosed]
    exact ⟨rfl, hsending, nofun⟩
  · rw [if_neg hclosed]
    obtain ⟨hok, hsent⟩ := sendAll_alike (hopen hclosed) (textFrame (telemetryText tick sequence))
    exact ⟨hok, hsent.sending, fun _ => hsent⟩

theorem frameAt_alike {s t : ClientSocket} (h : Resegments s t) {tick : Tick}
    (hwhole : tick.poll.ready = true → HeaderWhole tick.poll s) :
    frameAt (tick, s) = frameAt (tick, t) := by
  simp only [frameAt]
  split
  · next hready =>
    rcases (recvFrame_alike h (hwhole hready)).cases with
      ⟨frame, s', t', hs, ht, _⟩ | ⟨e, s', t', hs, ht, _⟩
    · rw [hs, ht]
    · rw [hs, ht]
  · rfl

theorem framesSeen_cons (tick : Tick) (rest : List Tick) (sequence : UInt64) (s : ClientSocket) :
    framesSeen (tick :: rest) sequence s = (frameAt (tick, s)).toList ++
      match clientTurn tick sequence s with
      | .ok true s' => framesSeen rest (sequence + 1) s'
      | _ => [] := by
  rw [framesSeen, polls, List.filterMap_cons]
  cases clientTurn tick sequence s with
  | error e s' => cases frameAt (tick, s) <;> rfl
  | ok goesOn s' => cases goesOn <;> cases frameAt (tick, s) <;> rfl

/-- As long as no header, extended length or mask key is cut, the cuts that the
stream arrives with change neither the frames the polls read nor the bytes that
go back, replies included. -/
theorem framesSeen_resegmented {ticks : List Tick} {sequence : UInt64} {s t : ClientSocket}
    (h : Resegments s t)
    (hwhole : ∀ p ∈ polls ticks sequence s, p.1.poll.ready = true → HeaderWhole p.1.poll p.2) :
    framesSeen ticks sequence s = framesSeen ticks sequence t ∧
      Alike (fun _ => SameSending) SameSending (clientLoop ticks sequence s)
        (clientLoop ticks sequence t) := by
  induction ticks generalizing sequence s t with
  | nil => exact ⟨rfl, rfl, h.sending⟩
  | cons tick rest ih =>
    rw [polls] at hwhole
    have hfirst := hwhole (tick, s) List.mem_cons_self
    rw [framesSeen_cons, framesSeen_cons, frameAt_alike h hfirst, clientLoop]
    rcases (clientTurn_alike h hfirst sequence).cases with
      ⟨goesOn, s', t', hs, ht, hsending, hopen⟩ | ⟨e, s', t', hs, ht, hQ⟩
    · rw [bind_of_ok hs, bind_of_ok ht, hs, ht]
      cases goesOn with
      | false => exact ⟨rfl, rfl, hsending⟩
      | true =>
        rw [hs] at hwhole
        obtain ⟨hframes, hloop⟩ := ih (hopen rfl) fun p hp =>
          hwhole p (List.mem_cons_of_mem _ hp)
        exact ⟨congrArg _ hframes, hloop⟩
    · rw [bind_of_error hs, bind_of_error ht, hs, ht]
      exact ⟨rfl, rfl, hQ⟩

/-! ### Two streams -/

theorem polls_singleton (tick : Tick) (sequence : UInt64) (s : ClientSocket) :
    polls [tick] sequence s = [(tick, s)] := by
  rw [polls]
  split <;> rfl

theorem framesSeen_singleton {tick : Tick} {s s' : ClientSocket} {frame : ClientFrame}
    (hready : tick.poll.ready = true) (h : recvFrame tick.poll s = .ok frame s')
    (sequence : UInt64) : framesSeen [tick] sequence s = [frame] := by
  simp [framesSeen, polls_singleton, frameAt, hready, h]

def zeroTick : Tick := ⟨zeroPoll, {}, {}⟩

/-- A ping of two bytes that come one by one, and the same ping uncut. -/
def splitPayload : ClientSocket where
  incoming := [0x89, 0x02, 0x41, 0x42]
  recvPlan k := if k = 0 then 2 else 1
  sendPlan _ := 10000

def uncutPayload : ClientSocket := { splitPayload with recvPlan := fun _ => 2 ^ 31 }

theorem resegments_payload : Resegments splitPayload uncutPayload := by
  refine ⟨rfl, rfl, fun k => ?_, fun k => le_refl _⟩
  show 1 ≤ if k = 0 then 2 else 1
  split <;> omega

theorem framesSeen_resegmented_payload :
    framesSeen [zeroTick] 0 splitPayload = framesSeen [zeroTick] 0 uncutPayload ∧
      Alike (fun _ => SameSending) SameSending (clientLoop [zeroTick] 0 splitPayload)
        (clientLoop [zeroTick] 0 uncutPayload) := by
  refine framesSeen_resegmented resegments_payload fun p hp _ => ?_
  rw [polls_singleton, List.mem_singleton] at hp
  subst hp
  have hheader : recvInto zeroPoll.header splitPayload =
      .ok (fun i => [0x89, 0x02].getD i.val 0) (splitPayload.received 2) := rfl
  refine ⟨(by decide : min 2 4 ≤ 2), fun header s₁ h => ?_⟩
  obtain ⟨rfl, rfl⟩ := EStateM.Result.ok.inj (hheader.symm.trans h)
  exact ⟨(by decide : min 0 2 ≤ 1), fun len s₂ _ hmasked => absurd (by decide) hmasked⟩

/-- A masked ping of one byte whose mask key is cut after its first byte, and
the same ping uncut. -/
def splitMask : ClientSocket where
  incoming := [0x89, 0x81, 0x01, 0x02, 0x03, 0x04, 0x41]
  recvPlan k := if k = 0 then 2 else 1
  sendPlan _ := 10000

def uncutMask : ClientSocket := { splitMask with recvPlan := fun _ => 2 ^ 31 }

theorem resegments_mask : Resegments splitMask uncutMask := by
  refine ⟨rfl, rfl, fun k => ?_, fun k => le_refl _⟩
  show 1 ≤ if k = 0 then 2 else 1
  split <;> omega

/-- The reply to a ping depends on how its bytes arrive. -/
theorem framesSeen_mask_cut : Resegments splitMask uncutMask ∧
    framesSeen [zeroTick] 0 splitMask = [⟨0x9, [0x03]⟩] ∧
    framesSeen [zeroTick] 0 uncutMask = [⟨0x9, [0x40]⟩] := by
  refine ⟨resegments_mask, ?_, ?_⟩
  · have hheader : recvInto zeroPoll.header splitMask =
        .ok (fun i => [0x89, 0x81].getD i.val 0) (splitMask.received 2) := rfl
    have hlen : recvLength zeroPoll 1 (splitMask.received 2) = .ok 1 (splitMask.received 2) := rfl
    have hkey : recvMaskKey true (splitMask.received 2) =
        .ok (fun i => [0x01].getD i.val 0) ((splitMask.received 2).received 1) := rfl
    have hin : ((splitMask.received 2).received 1).incoming = [0x02, 0x03, 0x04, 0x41] := rfl
    have hflows : ((splitMask.received 2).received 1).Flows :=
      (resegments_mask.flows.received 2).received 1
    rcases recvPayload_cases hflows 1 with ⟨_, _, s', hpayload, _⟩ | ⟨hbad, _⟩
    · have hframe := recvFrame_ok hheader hlen hkey hpayload
      exact framesSeen_singleton rfl hframe 0
    · rw [hin] at hbad
      exact absurd hbad (by decide)
  · have hheader : recvInto zeroPoll.header uncutMask =
        .ok (fun i => [0x89, 0x81].getD i.val 0) (uncutMask.received 2) := rfl
    have hlen : recvLength zeroPoll 1 (uncutMask.received 2) = .ok 1 (uncutMask.received 2) := rfl
    have hkey : recvMaskKey true (uncutMask.received 2) =
        .ok (fun i => [0x01, 0x02, 0x03, 0x04].getD i.val 0)
          ((uncutMask.received 2).received 4) := rfl
    have hin : ((uncutMask.received 2).received 4).incoming = [0x41] := rfl
    have hflows : ((uncutMask.received 2).received 4).Flows := fun k => by
      show 1 ≤ 2 ^ 31
      omega
    rcases recvPayload_cases hflows 1 with ⟨_, _, s', hpayload, _⟩ | ⟨hbad, _⟩
    · have hframe := recvFrame_ok hheader hlen hkey hpayload
      exact framesSeen_singleton rfl hframe 0
    · rw [hin] at hbad
      exact absurd hbad (by decide)

end Openaslc
