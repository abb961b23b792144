import Openaslc.FrameRoundTrip

/-! A whole session with a client that sends frames of any kind: which frames
`client_loop` writes, and in which order. -/

namespace Openaslc

open StateExcept WebSocket

/-! ### The frames of a session -/

def closeFrame : RawFrame := ⟨true, 0, 8, none, .bits7, [], by decide⟩

/-- The answer to a frame: a ping has at most 125 bytes. -/
def answers (f : RawFrame) : List RawFrame :=
  if h : f.payload.length ≤ 125 ∧ f.opcode = 9 then [pongOf f.payload h.1] else []

def telemetryFrame (tick : Tick) (sequence : UInt64) : RawFrame :=
  (textOf _ (length_telemetryText tick sequence)).raw

/-- What the loop writes to a client that sends `frames`. Each turn that finds
the socket ready takes one of them; the client is gone when none is left. -/
def session : List Tick → UInt64 → List RawFrame → List RawFrame
  | [], _, _ => []
  | tick :: rest, sequence, frames =>
    if tick.poll.ready then
      match frames with
      | [] => []
      | f :: later =>
        if f.opcode = 8 then [closeFrame]
        else answers f ++ telemetryFrame tick sequence :: session rest (sequence + 1) later
    else telemetryFrame tick sequence :: session rest (sequence + 1) frames

/-! ### A socket that gives and takes -/

/-- Each `recv` brings at least 8 bytes if they are there, each `send` takes at
least one. -/
structure Generous (s : ClientSocket) : Prop where
  receives : ∀ k, 8 ≤ s.recvPlan k
  accepts : s.Accepts

theorem Generous.flows {s : ClientSocket} (h : Generous s) : s.Flows :=
  fun k => (by omega : 1 ≤ 8).trans (h.receives k)

end Openaslc
