import Openaslc.ClientSocket
import Openaslc.JsonText
import Openaslc.MemoryMap
import Openaslc.Sha256
import Openaslc.WebSocketFrame

/-! The WebSocket side of the telemetry server: what `client_loop` reads from
one client and writes to it once the handshake is done. -/

namespace Openaslc

open StateExcept

/-! ### Frames to the client -/

def textFrame (payload : List UInt8) : List UInt8 :=
  let len := UInt64.ofNat payload.length
  let declared :=
    if len < 126 then [len.toUInt8]
    else if len ≤ 0xFFFF then [126, ((len >>> 8) &&& 0xFF).toUInt8, (len &&& 0xFF).toUInt8]
    else 127 :: ([7, 6, 5, 4, 3, 2, 1, 0] : List UInt64).map fun i =>
      ((len >>> (i * 8)) &&& 0xFF).toUInt8
  0x81 :: (declared ++ payload)

def sendTextFrame (payload : List UInt8) : EStateM Exception ClientSocket Bool := fun s =>
  .ok (sendAll (textFrame payload) s).1 (sendAll (textFrame payload) s).2

def controlFrame (opcode : UInt8) (payload : List UInt8) : List UInt8 :=
  (0x80 ||| opcode) :: (UInt64.ofNat payload.length &&& 0x7F).toUInt8 :: payload

def sendControlFrame (opcode : UInt8) (payload : List UInt8) (s : ClientSocket) : ClientSocket :=
  (sendAll (controlFrame opcode payload) s).2

/-! ### Frames from the client -/

inductive PollResult
  | noData
  | closed
  | handled
  deriving DecidableEq, Repr

/-- For which sizes `operator new` finds the memory. A vector of no elements asks
for none. -/
structure Heap where
  allocates : Nat → Bool
  nothing : allocates 0 = true

def Heap.boundless : Heap := ⟨fun _ => true, rfl⟩

/-- What `select` reports to one call, what the uninitialised arrays hold, and
the memory there is for the sizes that the client announces. -/
structure PollEnv where
  ready : Bool
  header : Fin 2 → UInt8
  ext16 : Fin 2 → UInt8
  ext64 : Fin 8 → UInt8
  heap : Heap

def zeroPoll : PollEnv := ⟨true, fun _ => 0, fun _ => 0, fun _ => 0, .boundless⟩

def recvLength (env : PollEnv) (payloadLen : UInt8) : SocketM UInt64 :=
  if payloadLen = 126 then do
    let ext ← recvInto env.ext16
    return ((ext 0).toUInt64 <<< 8) ||| (ext 1).toUInt64
  else if payloadLen = 127 then do
    let ext ← recvInto env.ext64
    return (List.ofFn ext).foldl (fun len byte => (len <<< 8) ||| byte.toUInt64) 0
  else return payloadLen.toUInt64

def recvMaskKey (masked : Bool) : SocketM (Fin 4 → UInt8) :=
  if masked then recvInto fun _ => 0 else return fun _ => 0

/-- `std::vector<uint8_t> payload(n)`, filled from the socket. -/
def recvVector (heap : Heap) (payloadLen : UInt64) : SocketM (List UInt8) :=
  if vectorMaxSize < payloadLen.toNat then
    throw (.threw (.lengthError "cannot create std::vector larger than max_size()"))
  else if heap.allocates payloadLen.toNat then recvPayload payloadLen.toNat
  else throw (.threw (.badAlloc "std::bad_alloc"))

def unmask (maskKey : Fin 4 → UInt8) (payload : List UInt8) : List UInt8 :=
  payload.mapIdx fun i byte => byte ^^^ maskKey (Fin.ofNat 4 i)

structure ClientFrame where
  opcode : UInt8
  payload : List UInt8
  deriving DecidableEq

def recvFrame (env : PollEnv) : SocketM ClientFrame := do
  let header ← recvInto env.header
  let masked := header 1 &&& 0x80 != 0
  let payloadLen ← recvLength env (header 1 &&& 0x7F)
  let maskKey ← recvMaskKey masked
  let payload ← recvVector env.heap payloadLen
  return ⟨header 0 &&& 0x0F, if masked then unmask maskKey payload else payload⟩

/-- The pong's frame is a second vector, two bytes longer than the payload. -/
def answerFrame (heap : Heap) (frame : ClientFrame) : EStateM Exception ClientSocket PollResult :=
  fun s =>
    if frame.opcode = 0x8 then .ok .closed (sendControlFrame 0x8 [] s)
    else if frame.opcode = 0x9 then
      if heap.allocates (frame.payload.length + 2) then
        .ok .handled (sendControlFrame 0xA frame.payload s)
      else .error (.badAlloc "std::bad_alloc") s
    else .ok .handled s

def pollClientFrame (env : PollEnv) : EStateM Exception ClientSocket PollResult := fun s =>
  if env.ready then
    match recvFrame env s with
    | .ok frame s' => answerFrame env.heap frame s'
    | .error .closed s' => .ok .closed s'
    | .error (.threw e) s' => .error e s'
  else .ok .noData s

/-! ### The loop of a client -/

/-- `msg`, whose keys `std::map` keeps sorted. -/
def telemetryMessage (sequence : UInt64) (input output : List UInt8) : Json :=
  .object [("I", .array (input.map fun byte => .numberUnsigned byte.toUInt64)),
    ("Q", .array (output.map fun byte => .numberUnsigned byte.toUInt64)),
    ("seq", .numberUnsigned sequence)]

/-- One turn of the loop: the image as each of the two snapshots finds it. -/
structure Tick where
  poll : PollEnv
  atInput : MemoryMap
  atOutput : MemoryMap

def telemetryText (tick : Tick) (sequence : UInt64) : List UInt8 :=
  stringBytes (plainText (telemetryMessage sequence (areaSnapshot tick.atInput .input)
    (areaSnapshot tick.atOutput .output)))

/-- The body of the loop; it returns whether the loop goes on. -/
def clientTurn (tick : Tick) (sequence : UInt64) : EStateM Exception ClientSocket Bool := do
  let result ← pollClientFrame tick.poll
  if result = .closed then return false
  else sendTextFrame (telemetryText tick sequence)

/-- `is_running_` is false after the last tick. -/
def clientLoop : List Tick → UInt64 → EStateM Exception ClientSocket Unit
  | [], _ => pure ()
  | tick :: rest, sequence => do
    let goesOn ← clientTurn tick sequence
    if goesOn then clientLoop rest (sequence + 1) else pure ()

/-- The calls of `poll_client_frame` that a run makes, with the socket each one
finds. -/
def polls : List Tick → UInt64 → ClientSocket → List (Tick × ClientSocket)
  | [], _, _ => []
  | tick :: rest, sequence, s =>
    (tick, s) :: match clientTurn tick sequence s with
      | .ok true s' => polls rest (sequence + 1) s'
      | _ => []

/-! ### What a turn does -/

theorem recvFrame_ok {env : PollEnv} {s s₁ s₂ s₃ s₄ : ClientSocket} {header : Fin 2 → UInt8}
    {len : UInt64} {maskKey : Fin 4 → UInt8} {payload : List UInt8}
    (hheader : recvInto env.header s = .ok header s₁)
    (hlen : recvLength env (header 1 &&& 0x7F) s₁ = .ok len s₂)
    (hkey : recvMaskKey (header 1 &&& 0x80 != 0) s₂ = .ok maskKey s₃)
    (hpayload : recvVector env.heap len s₃ = .ok payload s₄) :
    recvFrame env s = .ok ⟨header 0 &&& 0x0F,
      if header 1 &&& 0x80 != 0 then unmask maskKey payload else payload⟩ s₄ :=
  bind_eq_ok.mpr ⟨header, s₁, hheader, bind_eq_ok.mpr ⟨len, s₂, hlen,
    bind_eq_ok.mpr ⟨maskKey, s₃, hkey, bind_eq_ok.mpr ⟨payload, s₄, hpayload, rfl⟩⟩⟩⟩

theorem pollClientFrame_idle {env : PollEnv} (h : env.ready = false) (s : ClientSocket) :
    pollClientFrame env s = .ok .noData s := by
  simp [pollClientFrame, h]

theorem pollClientFrame_ok {env : PollEnv} {s s' : ClientSocket} {frame : ClientFrame}
    (h : env.ready) (hrecv : recvFrame env s = .ok frame s') :
    pollClientFrame env s = answerFrame env.heap frame s' := by
  simp [pollClientFrame, h, hrecv]

theorem pollClientFrame_closed {env : PollEnv} {s s' : ClientSocket} (h : env.ready)
    (hrecv : recvFrame env s = .error .closed s') : pollClientFrame env s = .ok .closed s' := by
  simp [pollClientFrame, h, hrecv]

theorem pollClientFrame_threw {env : PollEnv} {s s' : ClientSocket} {e : Exception} (h : env.ready)
    (hrecv : recvFrame env s = .error (.threw e) s') : pollClientFrame env s = .error e s' := by
  simp [pollClientFrame, h, hrecv]

theorem clientTurn_closed {tick : Tick} {s s' : ClientSocket}
    (h : pollClientFrame tick.poll s = .ok .closed s') (sequence : UInt64) :
    clientTurn tick sequence s = .ok false s' :=
  bind_eq_ok.mpr ⟨.closed, s', h, rfl⟩

theorem clientTurn_sends {tick : Tick} {s s' : ClientSocket} {result : PollResult}
    (h : pollClientFrame tick.poll s = .ok result s') (hresult : result ≠ .closed)
    (sequence : UInt64) :
    clientTurn tick sequence s = .ok (sendAll (textFrame (telemetryText tick sequence)) s').1
      (sendAll (textFrame (telemetryText tick sequence)) s').2 :=
  bind_eq_ok.mpr ⟨result, s', h, by rw [if_neg hresult]; rfl⟩

theorem clientTurn_refused {tick : Tick} {s s' : ClientSocket} {result : PollResult}
    (h : pollClientFrame tick.poll s = .ok result s') (hresult : result ≠ .closed)
    (hrefused : s'.sendPlan 0 = 0) (sequence : UInt64) :
    clientTurn tick sequence s = .ok false (s'.sent []) := by
  have hne : textFrame (telemetryText tick sequence) ≠ [] := List.cons_ne_nil _ _
  rw [clientTurn_sends h hresult, sendAll_refused s' hne hrefused]

theorem clientTurn_threw {tick : Tick} {s s' : ClientSocket} {e : Exception}
    (h : pollClientFrame tick.poll s = .error e s') (sequence : UInt64) :
    clientTurn tick sequence s = .error e s' :=
  bind_eq_error.mpr (.inl h)

theorem clientTurn_error {tick : Tick} {sequence : UInt64} {s s' : ClientSocket} {e : Exception}
    (h : clientTurn tick sequence s = .error e s') : pollClientFrame tick.poll s = .error e s' := by
  rcases bind_eq_error.mp h with h | ⟨result, m, _, h⟩
  · exact h
  · split at h <;> cases h

end Openaslc
