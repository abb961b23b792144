import Openaslc.TelemetrySockets

/-! How many steps the threads of the telemetry server still take once a `stop`
has begun, and whom they may have to wait for. -/

namespace Openaslc

/-- The steps that are left, at most, with `is_running_` false. -/
def ServerOwner.remaining : ServerOwner → Nat
  | .idle => 0
  | .stopping => 4
  | .listenClosed => 3
  | .joiningAccept => 2
  | .joiningClients => 1

/-- A handshake may still start a client thread, which takes two steps. -/
def AcceptThread.remaining : AcceptThread → Nat
  | .absent | .exited => 0
  | .testing | .accepted _ => 1
  | .accepting _ => 2
  | .polling _ => 3
  | .reading | .handshaking _ _ => 4

def ClientPhase.remaining : ClientPhase → Nat
  | .exited => 0
  | .leaving => 1
  | .testing => 2
  | .turning => 3

namespace TelemetryThreads

def remaining (s : TelemetryThreads) : Nat :=
  s.owner.remaining + s.accept.remaining + (s.clients.map fun c => c.phase.remaining).sum

end TelemetryThreads

end Openaslc
