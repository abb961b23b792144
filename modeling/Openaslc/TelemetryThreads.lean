import Openaslc.Custody
import Openaslc.Handshake
import Openaslc.Machine

/-! The threads of the telemetry server: its owner, the accept loop and one
thread for each client. Who holds which socket, and what a client is sent. -/

namespace Openaslc

/-- How far a call of `stop` has come. -/
inductive ServerOwner
  | idle
  | stopping
  | listenClosed
  | joiningAccept
  | joiningClients
  deriving DecidableEq

/-- Where the accept thread stands in `accept_loop`; its copy of the listening
socket is `none` for `kInvalidSocket`. -/
inductive AcceptThread
  | absent
  | testing
  | reading
  | polling (listenSock : Option Nat)
  | accepting (listenSock : Nat)
  | accepted (client : Option (Nat × ClientSocket))
  | handshaking (fd : Nat) (socket : ClientSocket)
  | exited

inductive ClientPhase
  | testing
  | turning
  | leaving
  | exited
  deriving DecidableEq

/-- A thread in `client_loop`, with the socket as it was accepted and the turns
that the loop has taken. -/
structure ClientThread where
  fd : Nat
  socket : ClientSocket
  sequence : UInt64 := 0
  phase : ClientPhase := .testing
  accepted : ClientSocket
  ticks : List Tick := []

/-- What the calls in `start` return. -/
inductive StartOutcome
  | noSocket
  | bindFails (fd : Nat)
  | listenFails (fd : Nat)
  | listening (fd : Nat)

/-- The server, its threads and its sockets. -/
structure TelemetryThreads where
  isRunning : Bool := false
  listenSocket : Option Nat := none
  owner : ServerOwner := .idle
  accept : AcceptThread := .absent
  clients : List ClientThread := []
  sockets : Custody Nat := {}

namespace TelemetryThreads

inductive Event
  | start (outcome : StartOutcome)
  | stop
  | closeListen
  | resetListen
  | joinAccept
  | joinClients
  | test
  | copyListen
  | select (ready : Bool)
  | accept (client : Option (Nat × ClientSocket))
  | check
  | handshake
  | clientTest (i : Nat)
  | clientTurn (i : Nat) (tick : Tick)
  | clientClose (i : Nat)

/-- A call returns no number that an open socket has. -/
def openSocket (s : TelemetryThreads) (fd : Nat) : Option TelemetryThreads :=
  (s.sockets.acquire fd).map fun sockets => { s with sockets }

def closeSocket (s : TelemetryThreads) (fd : Nat) : TelemetryThreads :=
  { s with sockets := s.sockets.release fd }

def startWith (s : TelemetryThreads) : StartOutcome → Option TelemetryThreads
  | .noSocket => some s
  | .bindFails fd => (s.openSocket fd).map (·.closeSocket fd)
  | .listenFails fd => (s.openSocket fd).map (·.closeSocket fd)
  | .listening fd => (s.openSocket fd).map fun s =>
    { s with listenSocket := some fd, isRunning := true, accept := .testing }

def ownerStep (s : TelemetryThreads) : Event → Option TelemetryThreads
  | .start outcome =>
    if s.owner = .idle then if s.isRunning then some s else s.startWith outcome else none
  | .stop =>
    if s.owner = .idle then
      some (if s.isRunning then { s with isRunning := false, owner := .stopping } else s)
    else none
  | .closeListen =>
    if s.owner = .stopping then
      match s.listenSocket with
      | some fd => some { s.closeSocket fd with owner := .listenClosed }
      | none => some { s with owner := .listenClosed }
    else none
  | .resetListen =>
    if s.owner = .listenClosed then some { s with listenSocket := none, owner := .joiningAccept }
    else none
  | .joinAccept =>
    match s.owner, s.accept with
    | .joiningAccept, .exited => some { s with accept := .absent, owner := .joiningClients }
    | _, _ => none
  | .joinClients =>
    if s.owner = .joiningClients ∧ ∀ c ∈ s.clients, c.phase = .exited then
      some { s with clients := [], owner := .idle }
    else none
  | _ => none

/-- No step follows `FD_SET` of an invalid socket. A handshake is one step, when
its last `recv` or `send` returns; a silent client puts that off at will. -/
def acceptStep (s : TelemetryThreads) : Event → Option TelemetryThreads
  | .test =>
    match s.accept with
    | .testing => some { s with accept := if s.isRunning then .reading else .exited }
    | _ => none
  | .copyListen =>
    match s.accept with
    | .reading => some { s with accept := .polling s.listenSocket }
    | _ => none
  | .select ready =>
    match s.accept with
    | .polling (some fd) => some { s with accept := if ready then .accepting fd else .testing }
    | _ => none
  | .accept client =>
    match s.accept with
    | .accepting _ =>
      match client with
      | some (fd, _) => (s.openSocket fd).map fun s => { s with accept := .accepted client }
      | none => some { s with accept := .accepted none }
    | _ => none
  | .check =>
    match s.accept with
    | .accepted (some (fd, socket)) =>
      if s.isRunning then some { s with accept := .handshaking fd socket }
      else some { s.closeSocket fd with accept := .exited }
    | .accepted none => some { s with accept := if s.isRunning then .testing else .exited }
    | _ => none
  | .handshake =>
    match s.accept with
    | .handshaking fd socket =>
      if (acceptClient socket).1 then some { s with
        clients := s.clients ++ [{ fd, socket := (acceptClient socket).2, accepted := socket }]
        accept := .testing }
      else some { s.closeSocket fd with accept := .testing }
    | _ => none
  | _ => none

/-- A turn is one step, when its last call on the socket returns. An exception
would leave the client thread and end the process. -/
def turn (c : ClientThread) (tick : Tick) : Option ClientThread :=
  match Openaslc.clientTurn tick c.sequence c.socket with
  | .ok goesOn socket => some { c with
      socket
      sequence := c.sequence + 1
      phase := if goesOn then .testing else .leaving
      ticks := c.ticks ++ [tick] }
  | .error _ _ => none

def setClient (s : TelemetryThreads) (i : Nat) (c : ClientThread) : TelemetryThreads :=
  { s with clients := s.clients.set i c }

def clientStep (s : TelemetryThreads) : Event → Option TelemetryThreads
  | .clientTest i =>
    match s.clients[i]? with
    | some c =>
      if c.phase = .testing then
        some (s.setClient i { c with phase := if s.isRunning then .turning else .leaving })
      else none
    | none => none
  | .clientTurn i tick =>
    match s.clients[i]? with
    | some c => if c.phase = .turning then (turn c tick).map (s.setClient i) else none
    | none => none
  | .clientClose i =>
    match s.clients[i]? with
    | some c =>
      if c.phase = .leaving then
        some ((s.closeSocket c.fd).setClient i { c with phase := .exited })
      else none
    | none => none
  | _ => none

def step (s : TelemetryThreads) (e : Event) : Option TelemetryThreads :=
  match e with
  | .clientTest _ | .clientTurn _ _ | .clientClose _ => s.clientStep e
  | .test | .copyListen | .select _ | .accept _ | .check | .handshake => s.acceptStep e
  | _ => s.ownerStep e

abbrev run : TelemetryThreads → List Event → Option TelemetryThreads := Machine.run step

/-! ### What a step can be -/

/-- Every enabled event, with what enables it and what it leaves. -/
inductive StepCase (s : TelemetryThreads) : Event → TelemetryThreads → Prop
  | startAgain (outcome : StartOutcome) (howner : s.owner = .idle) (hrunning : s.isRunning = true) :
    StepCase s (.start outcome) s
  | startFails (howner : s.owner = .idle) (hrunning : s.isRunning = false) :
    StepCase s (.start .noSocket) s
  | startCloses (outcome : StartOutcome) (fd : Nat) (sockets : Custody Nat) (howner : s.owner = .idle)
      (hrunning : s.isRunning = false) (hopen : s.sockets.acquire fd = some sockets) :
    StepCase s (.start outcome) { s with sockets := sockets.release fd }
  | startListens (fd : Nat) (sockets : Custody Nat) (howner : s.owner = .idle)
      (hrunning : s.isRunning = false) (hopen : s.sockets.acquire fd = some sockets) :
    StepCase s (.start (.listening fd)) { s with
      sockets, listenSocket := some fd, isRunning := true, accept := .testing }
  | stopAgain (howner : s.owner = .idle) (hrunning : s.isRunning = false) : StepCase s .stop s
  | stop (howner : s.owner = .idle) (hrunning : s.isRunning = true) :
    StepCase s .stop { s with isRunning := false, owner := .stopping }
  | closeListen (fd : Nat) (howner : s.owner = .stopping) (hlisten : s.listenSocket = some fd) :
    StepCase s .closeListen { s.closeSocket fd with owner := .listenClosed }
  | closeNothing (howner : s.owner = .stopping) (hlisten : s.listenSocket = none) :
    StepCase s .closeListen { s with owner := .listenClosed }
  | resetListen (howner : s.owner = .listenClosed) :
    StepCase s .resetListen { s with listenSocket := none, owner := .joiningAccept }
  | joinAccept (howner : s.owner = .joiningAccept) (haccept : s.accept = .exited) :
    StepCase s .joinAccept { s with accept := .absent, owner := .joiningClients }
  | joinClients (howner : s.owner = .joiningClients) (hexited : ∀ c ∈ s.clients, c.phase = .exited) :
    StepCase s .joinClients { s with clients := [], owner := .idle }
  | testOn (haccept : s.accept = .testing) (hrunning : s.isRunning = true) :
    StepCase s .test { s with accept := .reading }
  | testOff (haccept : s.accept = .testing) (hrunning : s.isRunning = false) :
    StepCase s .test { s with accept := .exited }
  | copyListen (haccept : s.accept = .reading) :
    StepCase s .copyListen { s with accept := .polling s.listenSocket }
  | selectReady (fd : Nat) (haccept : s.accept = .polling (some fd)) :
    StepCase s (.select true) { s with accept := .accepting fd }
  | selectIdle (fd : Nat) (haccept : s.accept = .polling (some fd)) :
    StepCase s (.select false) { s with accept := .testing }
  | accept (listenSock fd : Nat) (socket : ClientSocket) (sockets : Custody Nat)
      (haccept : s.accept = .accepting listenSock) (hopen : s.sockets.acquire fd = some sockets) :
    StepCase s (.accept (some (fd, socket))) { s with sockets, accept := .accepted (some (fd, socket)) }
  | acceptFails (listenSock : Nat) (haccept : s.accept = .accepting listenSock) :
    StepCase s (.accept none) { s with accept := .accepted none }
  | checkOn (fd : Nat) (socket : ClientSocket) (haccept : s.accept = .accepted (some (fd, socket)))
      (hrunning : s.isRunning = true) : StepCase s .check { s with accept := .handshaking fd socket }
  | checkOff (fd : Nat) (socket : ClientSocket) (haccept : s.accept = .accepted (some (fd, socket)))
      (hrunning : s.isRunning = false) : StepCase s .check { s.closeSocket fd with accept := .exited }
  | checkNoneOn (haccept : s.accept = .accepted none) (hrunning : s.isRunning = true) :
    StepCase s .check { s with accept := .testing }
  | checkNoneOff (haccept : s.accept = .accepted none) (hrunning : s.isRunning = false) :
    StepCase s .check { s with accept := .exited }
  | handshake (fd : Nat) (socket : ClientSocket) (haccept : s.accept = .handshaking fd socket)
      (hkey : (acceptClient socket).1 = true) : StepCase s .handshake { s with
        clients := s.clients ++ [{ fd, socket := (acceptClient socket).2, accepted := socket }]
        accept := .testing }
  | handshakeFails (fd : Nat) (socket : ClientSocket) (haccept : s.accept = .handshaking fd socket)
      (hkey : (acceptClient socket).1 = false) :
    StepCase s .handshake { s.closeSocket fd with accept := .testing }
  | clientOn (i : Nat) (c : ClientThread) (hclient : s.clients[i]? = some c)
      (hphase : c.phase = .testing) (hrunning : s.isRunning = true) :
    StepCase s (.clientTest i) (s.setClient i { c with phase := .turning })
  | clientOff (i : Nat) (c : ClientThread) (hclient : s.clients[i]? = some c)
      (hphase : c.phase = .testing) (hrunning : s.isRunning = false) :
    StepCase s (.clientTest i) (s.setClient i { c with phase := .leaving })
  | clientTurn (i : Nat) (tick : Tick) (c c' : ClientThread) (hclient : s.clients[i]? = some c)
      (hphase : c.phase = .turning) (hturn : turn c tick = some c') :
    StepCase s (.clientTurn i tick) (s.setClient i c')
  | clientClose (i : Nat) (c : ClientThread) (hclient : s.clients[i]? = some c)
      (hphase : c.phase = .leaving) :
    StepCase s (.clientClose i) ((s.closeSocket c.fd).setClient i { c with phase := .exited })

theorem startWith_case {s t : TelemetryThreads} {outcome : StartOutcome} (howner : s.owner = .idle)
    (hrunning : s.isRunning = false) (h : s.startWith outcome = some t) :
    StepCase s (.start outcome) t := by
  cases outcome with
  | noSocket =>
    obtain rfl := Option.some.inj h
    exact .startFails howner hrunning
  | bindFails fd =>
    simp only [startWith, openSocket, Option.map_map] at h
    obtain ⟨sockets, hopen, rfl⟩ := Option.map_eq_some_iff.mp h
    exact .startCloses _ fd sockets howner hrunning hopen
  | listenFails fd =>
    simp only [startWith, openSocket, Option.map_map] at h
    obtain ⟨sockets, hopen, rfl⟩ := Option.map_eq_some_iff.mp h
    exact .startCloses _ fd sockets howner hrunning hopen
  | listening fd =>
    simp only [startWith, openSocket, Option.map_map] at h
    obtain ⟨sockets, hopen, rfl⟩ := Option.map_eq_some_iff.mp h
    exact .startListens fd sockets howner hrunning hopen

theorem ownerStep_case {s t : TelemetryThreads} {e : Event} (h : s.ownerStep e = some t) :
    StepCase s e t := by
  cases e with
  | start outcome =>
    simp only [ownerStep] at h
    split at h
    · next howner =>
      by_cases hrunning : s.isRunning
      · rw [if_pos hrunning] at h
        obtain rfl := Option.some.inj h
        exact .startAgain outcome howner hrunning
      · rw [if_neg hrunning] at h
        exact startWith_case howner (Bool.not_eq_true _ ▸ hrunning) h
    · cases h
  | stop =>
    simp only [ownerStep] at h
    split at h
    · next howner =>
      obtain rfl := Option.some.inj h
      by_cases hrunning : s.isRunning
      · rw [if_pos hrunning]
        exact .stop howner hrunning
      · rw [if_neg hrunning]
        exact .stopAgain howner (Bool.not_eq_true _ ▸ hrunning)
    · cases h
  | closeListen =>
    simp only [ownerStep] at h
    split at h
    · next howner =>
      split at h
      · next fd hlisten =>
        obtain rfl := Option.some.inj h
        exact .closeListen fd howner hlisten
      · next hlisten =>
        obtain rfl := Option.some.inj h
        exact .closeNothing howner hlisten
    · cases h
  | resetListen =>
    simp only [ownerStep] at h
    split at h
    · next howner =>
      obtain rfl := Option.some.inj h
      exact .resetListen howner
    · cases h
  | joinAccept =>
    simp only [ownerStep] at h
    split at h
    · next howner haccept =>
      obtain rfl := Option.some.inj h
      exact .joinAccept howner haccept
    · cases h
  | joinClients =>
    simp only [ownerStep] at h
    split at h
    · next hguard =>
      obtain rfl := Option.some.inj h
      exact .joinClients hguard.1 hguard.2
    · cases h
  | _ => cases h

theorem acceptStep_case {s t : TelemetryThreads} {e : Event} (h : s.acceptStep e = some t) :
    StepCase s e t := by
  cases e with
  | test =>
    simp only [acceptStep] at h
    split at h
    · next haccept =>
      obtain rfl := Option.some.inj h
      by_cases hrunning : s.isRunning
      · rw [if_pos hrunning]
        exact .testOn haccept hrunning
      · rw [if_neg hrunning]
        exact .testOff haccept (Bool.not_eq_true _ ▸ hrunning)
    · cases h
  | copyListen =>
    simp only [acceptStep] at h
    split at h
    · next haccept =>
      obtain rfl := Option.some.inj h
      exact .copyListen haccept
    · cases h
  | select ready =>
    simp only [acceptStep] at h
    split at h
    · next fd haccept =>
      obtain rfl := Option.some.inj h
      cases ready with
      | true => exact .selectReady fd haccept
      | false => exact .selectIdle fd haccept
    · cases h
  | accept client =>
    simp only [acceptStep] at h
    split at h
    · next listenSock haccept =>
      cases client with
      | some client =>
        simp only [openSocket, Option.map_map] at h
        obtain ⟨sockets, hopen, rfl⟩ := Option.map_eq_some_iff.mp h
        exact .accept listenSock client.1 client.2 sockets haccept hopen
      | none =>
        obtain rfl := Option.some.inj h
        exact .acceptFails listenSock haccept
    · cases h
  | check =>
    simp only [acceptStep] at h
    split at h
    · next fd socket haccept =>
      by_cases hrunning : s.isRunning
      · rw [if_pos hrunning] at h
        obtain rfl := Option.some.inj h
        exact .checkOn fd socket haccept hrunning
      · rw [if_neg hrunning] at h
        obtain rfl := Option.some.inj h
        exact .checkOff fd socket haccept (Bool.not_eq_true _ ▸ hrunning)
    · next haccept =>
      obtain rfl := Option.some.inj h
      by_cases hrunning : s.isRunning
      · rw [if_pos hrunning]
        exact .checkNoneOn haccept hrunning
      · rw [if_neg hrunning]
        exact .checkNoneOff haccept (Bool.not_eq_true _ ▸ hrunning)
    · cases h
  | handshake =>
    simp only [acceptStep] at h
    split at h
    · next fd socket haccept =>
      by_cases hkey : (acceptClient socket).1
      · rw [if_pos hkey] at h
        obtain rfl := Option.some.inj h
        exact .handshake fd socket haccept hkey
      · rw [if_neg hkey] at h
        obtain rfl := Option.some.inj h
        exact .handshakeFails fd socket haccept (Bool.not_eq_true _ ▸ hkey)
    · cases h
  | _ => cases h

theorem clientStep_case {s t : TelemetryThreads} {e : Event} (h : s.clientStep e = some t) :
    StepCase s e t := by
  cases e with
  | clientTest i =>
    simp only [clientStep] at h
    split at h
    · next c hclient =>
      split at h
      · next hphase =>
        obtain rfl := Option.some.inj h
        by_cases hrunning : s.isRunning
        · rw [if_pos hrunning]
          exact .clientOn i c hclient hphase hrunning
        · rw [if_neg hrunning]
          exact .clientOff i c hclient hphase (Bool.not_eq_true _ ▸ hrunning)
      · cases h
    · cases h
  | clientTurn i tick =>
    simp only [clientStep] at h
    split at h
    · next c hclient =>
      split at h
      · next hphase =>
        obtain ⟨c', hturn, rfl⟩ := Option.map_eq_some_iff.mp h
        exact .clientTurn i tick c c' hclient hphase hturn
      · cases h
    · cases h
  | clientClose i =>
    simp only [clientStep] at h
    split at h
    · next c hclient =>
      split at h
      · next hphase =>
        obtain rfl := Option.some.inj h
        exact .clientClose i c hclient hphase
      · cases h
    · cases h
  | _ => cases h

theorem step_case {s t : TelemetryThreads} {e : Event} (h : s.step e = some t) : StepCase s e t := by
  cases e with
  | clientTest _ | clientTurn _ _ | clientClose _ => exact clientStep_case h
  | test | copyListen | select _ | accept _ | check | handshake => exact acceptStep_case h
  | _ => exact ownerStep_case h

end TelemetryThreads

end Openaslc
