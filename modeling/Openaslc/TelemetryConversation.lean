import Openaslc.TelemetrySession
import Openaslc.TelemetrySockets

/-! What one client of the server is sent, from its upgrade request on, while
the owner, the accept loop and the other clients go on in any order. -/

namespace Openaslc

open StateExcept WebSocket

/-! ### The handshake -/

/-- The bytes end with the first empty line, and the loop reads as far. -/
def HeaderBlock (request : List UInt8) : Prop :=
  Occurrence.find endOfHeaders request = some (request.length - 4) ∧ request.length ≤ 8192

theorem HeaderBlock.requestEnd {request : List UInt8} (h : HeaderBlock request) (rest : List UInt8) :
    requestEnd (request ++ rest) = request.length := by
  have hne : endOfHeaders ≠ [] := by decide
  have hfour : endOfHeaders.length = 4 := rfl
  obtain ⟨hfind, hsize⟩ := h
  have htake : (request ++ rest).take request.length = request := List.take_left
  rw [← htake, Occurrence.find_take_eq_some_iff hne, htake, hfour] at hfind
  obtain ⟨hwhole, hlen⟩ := hfind
  rw [Openaslc.requestEnd, hwhole]
  show min (request.length - 4 + 4) 8192 = request.length
  omega

namespace TelemetryThreads

/-! ### Each thread runs `client_loop` -/

/-- The turns that a thread has taken are a run of `client_loop` on the socket
that the handshake left, and while it goes on, so are those and any later ones. -/
structure RunsLoop (c : ClientThread) : Prop where
  accepted : (acceptClient c.accepted).1 = true
  sofar : clientLoop c.ticks 0 (acceptClient c.accepted).2 = .ok () c.socket
  further : c.phase = .testing ∨ c.phase = .turning → ∀ rest,
    clientLoop (c.ticks ++ rest) 0 (acceptClient c.accepted).2 = clientLoop rest c.sequence c.socket

theorem RunsLoop.phase {c : ClientThread} (h : RunsLoop c) (phase : ClientPhase)
    (hphase : phase = .testing ∨ phase = .turning → c.phase = .testing ∨ c.phase = .turning) :
    RunsLoop { c with phase } :=
  ⟨h.accepted, h.sofar, fun hgoes => h.further (hphase hgoes)⟩

theorem RunsLoop.turn {c c' : ClientThread} {tick : Tick} (h : RunsLoop c) (hphase : c.phase = .turning)
    (hturn : turn c tick = some c') : RunsLoop c' := by
  simp only [TelemetryThreads.turn] at hturn
  split at hturn
  · next goesOn socket hok =>
    obtain rfl := Option.some.inj hturn
    have hstep : ∀ rest, clientLoop (c.ticks ++ tick :: rest) 0 (acceptClient c.accepted).2 =
        if goesOn then clientLoop rest (c.sequence + 1) socket else .ok () socket := by
      intro rest
      rw [h.further (.inr hphase), clientLoop, bind_of_ok hok]
      cases goesOn <;> rfl
    refine ⟨h.accepted, ?_, fun hgoes rest => ?_⟩
    · rw [hstep []]
      cases goesOn <;> rfl
    · cases goesOn with
      | false => simp at hgoes
      | true =>
        rw [List.append_assoc]
        exact hstep rest
  · cases hturn

end TelemetryThreads

end Openaslc
