import Openaslc.BigEndian

/-! Unmasked RFC 6455 frames, as a server sends them, and the byte streams made
of them. -/

namespace WebSocket

inductive Opcode
  | continuation
  | text
  | binary
  | close
  | ping
  | pong
  deriving DecidableEq, Repr

def Opcode.code : Opcode → UInt8
  | continuation => 0x0
  | text => 0x1
  | binary => 0x2
  | close => 0x8
  | ping => 0x9
  | pong => 0xA

def Opcode.isControl : Opcode → Bool
  | close | ping | pong => true
  | continuation | text | binary => false

/-- A control frame is not fragmented and carries at most 125 bytes. -/
structure Frame where
  fin : Bool
  opcode : Opcode
  payload : List UInt8
  length_lt : payload.length < 2 ^ 63
  control : opcode.isControl → fin = true ∧ payload.length ≤ 125

/-- The second byte, whose mask bit is not set, and the extended length. -/
def declare (length : Nat) : List UInt8 :=
  if length < 126 then [UInt8.ofNat length]
  else if length < 2 ^ 16 then 126 :: BigEndian.encode 2 length
  else 127 :: BigEndian.encode 8 length

namespace Frame

def encode (f : Frame) : List UInt8 :=
  ((if f.fin then 0x80 else 0) ||| f.opcode.code) :: (declare f.payload.length ++ f.payload)

end Frame

def encodeAll (frames : List Frame) : List UInt8 := frames.flatMap Frame.encode

theorem encodeAll_concat (frames : List Frame) (f : Frame) :
    encodeAll (frames ++ [f]) = encodeAll frames ++ f.encode := by
  simp [encodeAll]

def Complete (bytes : List UInt8) : Prop := ∃ frames, bytes = encodeAll frames

/-- Complete frames, and then one that may be cut short anywhere. -/
def WellFormed (bytes : List UInt8) : Prop :=
  ∃ frames last tail, tail <+: Frame.encode last ∧ bytes = encodeAll frames ++ tail

theorem Complete.nil : Complete [] := ⟨[], rfl⟩

theorem Complete.append {bytes : List UInt8} (h : Complete bytes) (f : Frame) :
    Complete (bytes ++ f.encode) := by
  obtain ⟨frames, rfl⟩ := h
  exact ⟨frames ++ [f], (encodeAll_concat frames f).symm⟩

theorem Complete.cut {bytes : List UInt8} (h : Complete bytes) (f : Frame) (k : Nat) :
    WellFormed (bytes ++ f.encode.take k) := by
  obtain ⟨frames, rfl⟩ := h
  exact ⟨frames, f, _, List.take_prefix k _, rfl⟩

theorem Complete.wellFormed {bytes : List UInt8} (h : Complete bytes) : WellFormed bytes := by
  have hcut := h.cut ⟨true, .text, [], by decide, nofun⟩ 0
  rwa [List.take_zero, List.append_nil] at hcut

/-! ### The first two bytes -/

theorem control_of_code {op : Opcode} {fin : Bool}
    (h : ((if fin then 0x80 else 0) ||| op.code : UInt8) &&& 0x08 ≠ 0) : op.isControl := by
  cases op <;> cases fin <;> first | rfl | exact absurd rfl h

theorem Frame.second_le {f : Frame} {b c : UInt8} {rest : List UInt8}
    (h : [b, c] <+: f.encode ++ rest) (hb : b &&& 0x08 ≠ 0) : c ≤ 125 := by
  have hfirst : b = (if f.fin then 0x80 else 0) ||| f.opcode.code := by
    simpa [encode] using (List.cons_prefix_cons.mp h).1
  have hcontrol : f.payload.length ≤ 125 := (f.control (control_of_code (hfirst ▸ hb))).2
  have hdeclare : declare f.payload.length = [UInt8.ofNat f.payload.length] :=
    if_pos (by omega)
  have hsecond : c = UInt8.ofNat f.payload.length := by
    have htail := (List.cons_prefix_cons.mp h).2
    rw [hdeclare] at htail
    exact (List.cons_prefix_cons.mp htail).1
  rw [hsecond, UInt8.le_iff_toNat_le, UInt8.toNat_ofNat', Nat.mod_eq_of_lt (by omega)]
  exact hcontrol

theorem WellFormed.second_le {b c : UInt8} {rest : List UInt8} (h : WellFormed (b :: c :: rest))
    (hb : b &&& 0x08 ≠ 0) : c ≤ 125 := by
  obtain ⟨frames, last, tail, htail, heq⟩ := h
  have hpre : [b, c] <+: b :: c :: rest := List.prefix_append [b, c] rest
  cases frames with
  | nil =>
    have heq' : b :: c :: rest = tail := by simpa [encodeAll] using heq
    have hlast : [b, c] <+: last.encode ++ [] := by
      rw [List.append_nil]
      exact (heq' ▸ hpre).trans htail
    exact Frame.second_le hlast hb
  | cons f frames =>
    have heq' : b :: c :: rest = f.encode ++ (encodeAll frames ++ tail) := by
      simpa [encodeAll] using heq
    exact Frame.second_le (heq' ▸ hpre) hb

end WebSocket
