import Openaslc.TelemetryThreads

/-! Who holds which socket, in every run of the telemetry server's threads. -/

namespace Openaslc

def ClientThread.held (c : ClientThread) : List Nat := if c.phase = .exited then [] else [c.fd]

def AcceptThread.held : AcceptThread → List Nat
  | .accepted (some (fd, _)) | .handshaking fd _ => [fd]
  | _ => []

namespace TelemetryThreads

/-- The listening socket, which `stop` closes before it resets the field. -/
def listenHeld (s : TelemetryThreads) : List Nat :=
  if s.owner = .idle ∨ s.owner = .stopping then s.listenSocket.toList else []

/-- Every socket that some thread holds. -/
def held (s : TelemetryThreads) : List Nat :=
  s.listenHeld ++ (s.accept.held ++ s.clients.flatMap ClientThread.held)

/-- The listening socket that the accept thread has copied. -/
def copied (s : TelemetryThreads) : Option (Option Nat) :=
  match s.accept with
  | .polling copy => some copy
  | .accepting fd => some (some fd)
  | _ => none

/-- Which threads are there, by the owner's place in `start` and `stop`. -/
structure Shape (s : TelemetryThreads) : Prop where
  stopped : s.owner = .idle → s.isRunning = false →
    s.listenSocket = none ∧ s.accept = .absent ∧ s.clients = []
  running : s.isRunning = true → s.owner = .idle ∧ s.accept ≠ .absent ∧ s.accept ≠ .exited
  listening : s.isRunning = true ∨ s.owner = .stopping ∨ s.owner = .listenClosed →
    s.listenSocket ≠ none
  reset : s.owner = .joiningAccept ∨ s.owner = .joiningClients → s.listenSocket = none
  joining : s.owner = .stopping ∨ s.owner = .listenClosed ∨ s.owner = .joiningAccept →
    s.accept ≠ .absent
  joined : s.owner = .joiningClients → s.accept = .absent
  copied : ∀ copy, s.copied = some copy → copy = s.listenSocket ∨ s.owner = .joiningAccept

theorem Shape.fresh : ({} : TelemetryThreads).Shape where
  stopped _ _ := ⟨rfl, rfl, rfl⟩
  running := nofun
  listening := by simp
  reset := by simp
  joining := by simp
  joined := nofun
  copied := nofun

theorem Shape.off {s : TelemetryThreads} (h : s.Shape) (howner : s.owner ≠ .idle) :
    s.isRunning = false := by
  by_contra hon
  exact howner (h.running (Bool.not_eq_false _ ▸ hon)).1

theorem Shape.present {s : TelemetryThreads} (h : s.Shape) (haccept : s.accept ≠ .absent) :
    s.owner ≠ .joiningClients ∧ (s.owner = .idle → s.isRunning = true) := by
  refine ⟨fun hjoined => haccept (h.joined hjoined), fun hidle => ?_⟩
  by_contra hoff
  exact haccept (h.stopped hidle (Bool.not_eq_true _ ▸ hoff)).2.1

/-- The owner went on in `stop`, and the accept thread is still there. -/
theorem Shape.stop {s t : TelemetryThreads} (h : s.Shape) (howner : t.owner ≠ .idle)
    (hunjoined : t.owner ≠ .joiningClients) (hrunning : t.isRunning = false)
    (hlisten : t.listenSocket = if t.owner = .joiningAccept then none else s.listenSocket)
    (hlistening : s.listenSocket ≠ none) (hpresent : s.accept ≠ .absent)
    (haccept : t.accept = s.accept) (hearly : s.owner ≠ .joiningAccept) : t.Shape := by
  have hcopied : t.copied = s.copied := by rw [TelemetryThreads.copied, haccept]; rfl
  refine ⟨fun hidle => absurd hidle howner, by simp [hrunning], ?_, ?_,
    fun _ => haccept ▸ hpresent, fun hj => absurd hj hunjoined, fun copy hcopy => ?_⟩
  · intro hlate
    have hnot : t.owner ≠ .joiningAccept := by
      rcases hlate with hon | hlate | hlate
      · exact nomatch hrunning.symm.trans hon
      · rw [hlate]; nofun
      · rw [hlate]; nofun
    rw [hlisten, if_neg hnot]
    exact hlistening
  · intro hreset
    rw [hlisten, if_pos (hreset.resolve_right hunjoined)]
  · by_cases hlate : t.owner = .joiningAccept
    · exact .inr hlate
    · rw [hlisten, if_neg hlate]
      exact .inl ((h.copied copy (hcopied ▸ hcopy)).resolve_right hearly)

/-- The accept thread went on. -/
theorem Shape.acceptThread {s t : TelemetryThreads} (h : s.Shape) (hpresent : s.accept ≠ .absent)
    (howner : t.owner = s.owner) (hrunning : t.isRunning = s.isRunning)
    (hlisten : t.listenSocket = s.listenSocket) (haccept : t.accept ≠ .absent)
    (hexited : s.isRunning = true → t.accept ≠ .exited)
    (hcopied : ∀ copy, t.copied = some copy → copy = s.listenSocket ∨ s.copied = some copy) :
    t.Shape := by
  obtain ⟨hjoined, hidle⟩ := h.present hpresent
  refine ⟨fun hi hoff => ?_, fun hon => ?_, ?_, ?_, fun _ => haccept, fun hj => ?_, fun copy hcopy => ?_⟩
  · rw [howner] at hi
    rw [hrunning, hidle hi] at hoff
    cases hoff
  · rw [hrunning] at hon
    exact ⟨howner ▸ (h.running hon).1, haccept, hexited hon⟩
  · rw [hrunning, howner, hlisten]
    exact h.listening
  · rw [howner, hlisten]
    exact h.reset
  · exact absurd (howner ▸ hj) hjoined
  · rw [howner, hlisten]
    rcases hcopied copy hcopy with hsame | hbefore
    · exact .inl hsame
    · exact h.copied copy hbefore

/-- A client thread went on. -/
theorem Shape.clientThread {s t : TelemetryThreads} {i : Nat} {c : ClientThread} (h : s.Shape)
    (hclient : s.clients[i]? = some c) (howner : t.owner = s.owner)
    (hrunning : t.isRunning = s.isRunning) (hlisten : t.listenSocket = s.listenSocket)
    (haccept : t.accept = s.accept) : t.Shape := by
  have hcopied : t.copied = s.copied := by rw [TelemetryThreads.copied, haccept]; rfl
  refine ⟨fun hi hoff => ?_, ?_, ?_, ?_, ?_, ?_, ?_⟩
  · obtain ⟨_, _, hnone⟩ := h.stopped (howner ▸ hi) (hrunning ▸ hoff)
    rw [hnone] at hclient
    cases hclient
  · rw [hrunning, howner, haccept]
    exact h.running
  · rw [hrunning, howner, hlisten]
    exact h.listening
  · rw [howner, hlisten]
    exact h.reset
  · rw [howner, haccept]
    exact h.joining
  · rw [howner, haccept]
    exact h.joined
  · rw [hcopied, howner, hlisten]
    exact h.copied

theorem Shape.step {s t : TelemetryThreads} {e : Event} (h : s.Shape) (hstep : s.step e = some t) :
    t.Shape := by
  cases step_case hstep with
  | startAgain | startFails | stopAgain => exact h
  | startCloses =>
    exact ⟨h.stopped, h.running, h.listening, h.reset, h.joining, h.joined, h.copied⟩
  | startListens fd sockets howner =>
    exact ⟨nofun, fun _ => ⟨howner, nofun, nofun⟩, fun _ => nofun, by simp [howner], fun _ => nofun,
      by simp [howner], nofun⟩
  | stop howner hrunning =>
    exact h.stop nofun nofun rfl rfl (h.listening (.inl hrunning)) (h.running hrunning).2.1 rfl
      (by simp [howner])
  | closeListen fd howner =>
    exact h.stop nofun nofun (h.off (by simp [howner])) rfl (h.listening (.inr (.inl howner)))
      (h.joining (.inl howner)) rfl (by simp [howner])
  | closeNothing howner hlisten => exact absurd hlisten (h.listening (.inr (.inl howner)))
  | resetListen howner =>
    exact h.stop nofun nofun (h.off (by simp [howner])) rfl (h.listening (.inr (.inr howner)))
      (h.joining (.inr (.inl howner))) rfl (by simp [howner])
  | joinAccept howner haccept =>
    have hoff := h.off (by simp [howner])
    exact ⟨nofun, by simp [hoff], by simp [hoff], fun _ => h.reset (.inl howner), by simp, fun _ => rfl,
      nofun⟩
  | joinClients howner hexited =>
    have hoff := h.off (by simp [howner])
    have hcopied : s.copied = none := by rw [TelemetryThreads.copied, h.joined howner]
    exact ⟨fun _ _ => ⟨h.reset (.inr howner), h.joined howner, rfl⟩, by simp [hoff], by simp [hoff],
      by simp, by simp, by simp, fun copy hcopy => nomatch hcopied.symm.trans hcopy⟩
  | testOn haccept | selectIdle fd haccept | acceptFails fd haccept | checkOn fd socket haccept
  | checkNoneOn haccept | handshake fd socket haccept | handshakeFails fd socket haccept =>
    exact h.acceptThread (by simp [haccept]) rfl rfl rfl nofun (fun _ => nofun) nofun
  | accept listenSock fd socket sockets haccept =>
    exact h.acceptThread (by simp [haccept]) rfl rfl rfl nofun (fun _ => nofun) nofun
  | testOff haccept hrunning | checkNoneOff haccept hrunning =>
    exact h.acceptThread (by simp [haccept]) rfl rfl rfl nofun (by simp [hrunning]) nofun
  | checkOff fd socket haccept hrunning =>
    exact h.acceptThread (by simp [haccept]) rfl rfl rfl nofun (by simp [hrunning]) nofun
  | copyListen haccept =>
    refine h.acceptThread (by simp [haccept]) rfl rfl rfl nofun (fun _ => nofun) fun copy hcopy => ?_
    exact .inl (Option.some.inj hcopy).symm
  | selectReady fd haccept =>
    refine h.acceptThread (by simp [haccept]) rfl rfl rfl nofun (fun _ => nofun) fun copy hcopy => ?_
    rw [TelemetryThreads.copied, haccept]
    exact .inr hcopy
  | clientOn i c hclient | clientOff i c hclient | clientClose i c hclient =>
    exact h.clientThread hclient rfl rfl rfl rfl
  | clientTurn i tick c c' hclient => exact h.clientThread hclient rfl rfl rfl rfl

/-! ### One holder for each socket -/

theorem turn_fd {c c' : ClientThread} {tick : Tick} (h : turn c tick = some c') :
    c'.fd = c.fd ∧ c'.phase ≠ .exited := by
  simp only [turn] at h
  split at h
  · next goesOn socket hgoes =>
    obtain rfl := Option.some.inj h
    refine ⟨rfl, ?_⟩
    cases goesOn <;> simp
  · cases h

theorem held_setClient {s : TelemetryThreads} {i : Nat} {c : ClientThread}
    (hclient : s.clients[i]? = some c) (c' : ClientThread) :
    (c'.held ++ s.held).Perm (c.held ++ (s.setClient i c').held) := by
  have hrow := Custody.flatMap_set_perm hclient c' ClientThread.held
  have hout : (c'.held ++ s.held).Perm
      (s.listenHeld ++ (s.accept.held ++ (c'.held ++ s.clients.flatMap ClientThread.held))) :=
    (List.perm_append_comm_assoc _ _ _).trans ((List.perm_append_comm_assoc _ _ _).append_left _)
  have hin : (s.listenHeld ++ (s.accept.held ++
      (c.held ++ (s.clients.set i c').flatMap ClientThread.held))).Perm
        (c.held ++ (s.setClient i c').held) :=
    ((List.perm_append_comm_assoc _ _ _).append_left _).trans (List.perm_append_comm_assoc _ _ _)
  exact (hout.trans ((hrow.append_left _).append_left _)).trans hin

theorem held_setClient_same {s : TelemetryThreads} {i : Nat} {c c' : ClientThread}
    (hclient : s.clients[i]? = some c) (hheld : c'.held = c.held) :
    s.held.Perm (s.setClient i c').held := by
  have hperm := held_setClient hclient c'
  rw [hheld] at hperm
  exact (List.perm_append_left_iff _).mp hperm

theorem held_step {s t : TelemetryThreads} {e : Event} (hshape : s.Shape)
    (h : s.sockets.Held s.held) (hstep : s.step e = some t) : t.sockets.Held t.held := by
  cases step_case hstep with
  | startAgain | startFails | stopAgain => exact h
  | startCloses outcome fd sockets howner hrunning hopen => exact (h.acquire hopen).release
  | startListens fd sockets howner hrunning hopen =>
    obtain ⟨hlisten, haccept, hclients⟩ := hshape.stopped howner hrunning
    have hnone : s.held = [] := by simp [held, listenHeld, hlisten, haccept, hclients, AcceptThread.held]
    have hsome := h.acquire hopen
    rw [hnone] at hsome
    simpa [held, listenHeld, howner, hclients, AcceptThread.held] using hsome
  | stop howner hrunning => simpa [held, listenHeld, howner] using h
  | closeListen fd howner hlisten =>
    have hheld : s.held = fd :: (s.accept.held ++ s.clients.flatMap ClientThread.held) := by
      simp [held, listenHeld, howner, hlisten]
    rw [hheld] at h
    simpa [held, listenHeld, closeSocket] using h.release
  | closeNothing howner hlisten => exact absurd hlisten (hshape.listening (.inr (.inl howner)))
  | resetListen howner => simpa [held, listenHeld, howner] using h
  | joinAccept howner haccept => simpa [held, listenHeld, howner, haccept, AcceptThread.held] using h
  | joinClients howner hexited =>
    have hnone : s.clients.flatMap ClientThread.held = [] := by
      refine List.flatMap_eq_nil_iff.mpr fun c hc => ?_
      rw [ClientThread.held, if_pos (hexited c hc)]
    simpa [held, listenHeld, howner, hnone, hshape.reset (.inr howner)] using h
  | testOn haccept | testOff haccept | copyListen haccept | selectReady fd haccept
  | selectIdle fd haccept | acceptFails fd haccept | checkOn fd socket haccept
  | checkNoneOn haccept | checkNoneOff haccept =>
    simpa [held, listenHeld, haccept, AcceptThread.held] using h
  | accept listenSock fd socket sockets haccept hopen =>
    refine (h.acquire hopen).perm ?_
    simp only [held, listenHeld, haccept, AcceptThread.held, List.nil_append]
    exact List.perm_middle.symm
  | checkOff fd socket haccept | handshakeFails fd socket haccept =>
    have hheld : s.held = s.listenHeld ++ (fd :: s.clients.flatMap ClientThread.held) := by
      simp [held, haccept, AcceptThread.held]
    exact (h.perm (hheld ▸ List.perm_middle)).release
  | handshake fd socket haccept hkey =>
    refine h.perm ?_
    simp only [held, listenHeld, haccept, AcceptThread.held, List.nil_append, List.flatMap_append,
      List.flatMap_singleton]
    exact List.perm_append_comm.append_left _
  | clientOn i c hclient hphase | clientOff i c hclient hphase =>
    exact h.perm (held_setClient_same hclient (by simp [ClientThread.held, hphase]))
  | clientTurn i tick c c' hclient hphase hturn =>
    obtain ⟨hfd, hpresent⟩ := turn_fd hturn
    exact h.perm (held_setClient_same hclient (by simp [ClientThread.held, hphase, hfd, hpresent]))
  | clientClose i c hclient hphase =>
    have hperm := held_setClient hclient { c with phase := .exited }
    simp only [ClientThread.held, hphase, reduceCtorEq, if_true, if_false, List.nil_append] at hperm
    exact (h.perm hperm).release

theorem run_held {events : List Event} {s : TelemetryThreads} (h : run {} events = some s) :
    s.Shape ∧ s.sockets.Held s.held := by
  refine Machine.run_induction (fun _ s => s.Shape ∧ s.sockets.Held s.held) ?_ ?_ h
  · exact ⟨Shape.fresh, Custody.Held.empty⟩
  · rintro es s e t _ ⟨hshape, hheld⟩ hstep
    exact ⟨hshape.step hstep, held_step hshape hheld hstep⟩

theorem Shape.held_stopped {s : TelemetryThreads} (h : s.Shape) (howner : s.owner = .idle)
    (hoff : s.isRunning = false) : s.held = [] := by
  obtain ⟨hlisten, haccept, hclients⟩ := h.stopped howner hoff
  simp [held, listenHeld, hlisten, haccept, hclients, AcceptThread.held]

/-- In every run each open socket is held by one thread, and every other socket
that was opened has been closed once. The accept thread polls the open listening
socket, except between the two steps of `stop` that close it and join the
thread. A stopped server holds nothing and runs no thread. -/
theorem server_sockets {events : List Event} {s : TelemetryThreads} (h : run {} events = some s) :
    s.held.Nodup ∧ (∀ fd, fd ∈ s.sockets.live ↔ fd ∈ s.held) ∧
      (∀ fd, s.sockets.opened.count fd = s.sockets.closed.count fd + if fd ∈ s.held then 1 else 0) ∧
      (∀ copy, s.copied = some copy → (∃ fd, copy = some fd ∧ fd ∈ s.listenHeld) ∨
        s.owner = .listenClosed ∨ s.owner = .joiningAccept) ∧
      (s.isRunning = false → s.owner = .idle → s.held = [] ∧ s.accept = .absent ∧ s.clients = []) := by
  obtain ⟨hshape, hheld⟩ := run_held h
  refine ⟨hheld.nodup, fun fd => hheld.mem_live, hheld.count, fun copy hcopy => ?_, fun hoff howner => ?_⟩
  · have hpresent : s.accept ≠ .absent := by
      intro habsent
      rw [copied, habsent] at hcopy
      cases hcopy
    obtain ⟨hunjoined, hidle⟩ := hshape.present hpresent
    have hopen : s.isRunning = true ∨ s.owner = .stopping ∨ s.owner = .listenClosed →
        s.owner ≠ .joiningAccept → s.owner = .idle ∨ s.owner = .stopping →
          ∃ fd, copy = some fd ∧ fd ∈ s.listenHeld := by
      intro hlistening hearly hheld
      obtain ⟨fd, hfd⟩ := Option.ne_none_iff_exists'.mp (hshape.listening hlistening)
      have hsame := (hshape.copied copy hcopy).resolve_right hearly
      exact ⟨fd, hsame.trans hfd, by simp [listenHeld, hheld, hfd]⟩
    cases howner : s.owner with
    | idle => exact .inl (hopen (.inl (hidle howner)) (by simp [howner]) (.inl howner))
    | stopping => exact .inl (hopen (.inr (.inl howner)) (by simp [howner]) (.inr howner))
    | listenClosed => exact .inr (.inl rfl)
    | joiningAccept => exact .inr (.inr rfl)
    | joiningClients => exact absurd howner hunjoined
  · exact ⟨hshape.held_stopped howner hoff, (hshape.stopped howner hoff).2⟩

def upgradeRequest : List UInt8 :=
  stringBytes "GET / HTTP/1.1\r\nSec-WebSocket-Key: abc\r\n\r\n"

/-- A client that sends its upgrade request byte by byte. -/
def upgradingClient : ClientSocket where
  incoming := upgradeRequest
  recvPlan _ := 1
  sendPlan _ := 129

theorem acceptClient_upgradingClient : ∃ m, acceptClient upgradingClient = (true, m) := by
  apply acceptClient_whole
  · obtain ⟨m, hread, _⟩ := readWebsocketKey_eq upgradingClient
    have hkey : keyOfRequest (requestRead upgradingClient.arriving) = stringBytes "abc" := by rfl
    have hne : stringBytes "abc" ≠ [] := by decide
    rwa [hread, hkey]
  · exact le_refl 129

/-- A client is in its turn, and the accept thread reads the field after `stop`
has reset it. -/
def lateCopy : List Event :=
  [.start (.listening 3), .test, .copyListen, .select true, .accept (some (4, upgradingClient)), .check,
    .handshake, .clientTest 0, .test, .stop, .closeListen, .resetListen, .copyListen]

theorem run_lateCopy {m : ClientSocket} (haccept : acceptClient upgradingClient = (true, m)) :
    run {} lateCopy = some
      { owner := .joiningAccept, accept := .polling none,
        clients := [⟨4, m, 0, .turning, upgradingClient, []⟩],
        sockets := ⟨[4], [3, 4], [3]⟩ } := by
  simp [run, Machine.run, lateCopy, step, ownerStep, acceptStep, clientStep, startWith, openSocket,
    closeSocket, Custody.acquire, Custody.release, setClient, haccept]

theorem server_sockets_lateCopy : ∃ s, run {} lateCopy = some s ∧ s.copied = some none ∧ s.held = [4] ∧
    s.held.Nodup ∧ (∀ fd, fd ∈ s.sockets.live ↔ fd ∈ s.held) ∧
      (∀ fd, s.sockets.opened.count fd = s.sockets.closed.count fd + if fd ∈ s.held then 1 else 0) ∧
      (∀ copy, s.copied = some copy → (∃ fd, copy = some fd ∧ fd ∈ s.listenHeld) ∨
        s.owner = .listenClosed ∨ s.owner = .joiningAccept) ∧
      (s.isRunning = false → s.owner = .idle → s.held = [] ∧ s.accept = .absent ∧ s.clients = []) := by
  obtain ⟨m, haccept⟩ := acceptClient_upgradingClient
  have hrun := run_lateCopy haccept
  exact ⟨_, hrun, rfl, rfl, server_sockets hrun⟩

end TelemetryThreads

end Openaslc
