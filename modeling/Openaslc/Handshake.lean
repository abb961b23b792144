import Openaslc.FrameRoundTrip
import Openaslc.Rfc4648
import Openaslc.Sha1
import Openaslc.UpgradeRequest

/-! The handshake's writing side: the accept key and the response that carries it. -/

namespace Openaslc

/-! ### The code -/

def base64Table : List UInt8 :=
  stringBytes "ABCDEFGHIJKLMNOPQRSTUVWXYZabcdefghijklmnopqrstuvwxyz0123456789+/"

/-- `table[n & 0x3F]`. -/
def base64Char (n : UInt32) : UInt8 := base64Table.getD (n &&& 0x3F).toNat 0

def base64Encode : List UInt8 → List UInt8
  | a :: b :: c :: rest =>
    let n := (a.toUInt32 <<< 16) ||| (b.toUInt32 <<< 8) ||| c.toUInt32
    base64Char (n >>> 18) :: base64Char (n >>> 12) :: base64Char (n >>> 6) :: base64Char n ::
      base64Encode rest
  | [a, b] =>
    let n := (a.toUInt32 <<< 16) ||| (b.toUInt32 <<< 8)
    [base64Char (n >>> 18), base64Char (n >>> 12), base64Char (n >>> 6), 0x3D]
  | [a] =>
    let n := a.toUInt32 <<< 16
    [base64Char (n >>> 18), base64Char (n >>> 12), 0x3D, 0x3D]
  | [] => []

def kWsMagicGuid : List UInt8 := stringBytes "258EAFA5-E914-47DA-95CA-C5AB0DC85B11"

def acceptKey (key : List UInt8) : List UInt8 := base64Encode (sha1 (key ++ kWsMagicGuid))

def handshakeResponse (key : List UInt8) : List UInt8 :=
  stringBytes "HTTP/1.1 101 Switching Protocols\r\n" ++ stringBytes "Upgrade: websocket\r\n" ++
    stringBytes "Connection: Upgrade\r\n" ++ stringBytes "Sec-WebSocket-Accept: " ++
    acceptKey key ++ endOfHeaders

/-- One connection in `accept_loop`: whether a client thread starts for it. -/
def acceptClient (s : ClientSocket) : Bool × ClientSocket :=
  let (key, s') := readWebsocketKey s
  if key = [] then (false, s') else sendAll (handshakeResponse key) s'

/-! ### Base 64 -/

theorem base64Char_eq {n : UInt32} {v : Nat} (h : n.toNat = v) :
    base64Char n = Rfc4648.letter (v % 64) := by
  have htable : base64Table = Rfc4648.alphabet := rfl
  have hmask : (n &&& 0x3F).toNat = v % 64 := by
    rw [UInt32.toNat_and, h]
    exact Nat.and_two_pow_sub_one_eq_mod v 6
  rw [base64Char, htable, hmask, Rfc4648.letter]

theorem base64Char_shift {n k : UInt32} {v : Nat} (h : n.toNat = v) (hk : k.toNat < 32) :
    base64Char (n >>> k) = Rfc4648.letter (v / 2 ^ k.toNat % 64) := by
  apply base64Char_eq
  rw [UInt32.toNat_shiftRight, Nat.mod_eq_of_lt hk, h, Nat.shiftRight_eq_div_pow]

theorem toNat_group (a b c : UInt8) :
    ((a.toUInt32 <<< 16) ||| (b.toUInt32 <<< 8) ||| c.toUInt32).toNat =
      BigEndian.value [a, b, c] := by
  have hbits := toBitVec_bytes 0 a b c
  have hzero : (0 : UInt8).toUInt32 <<< 24 = 0 := by decide
  have hvalue : BigEndian.value [0, a, b, c] = BigEndian.value [a, b, c] := by
    rw [BigEndian.value_cons, UInt8.toNat_zero, Nat.zero_mul, Nat.zero_add]
  have hlt : BigEndian.value [a, b, c] < 256 ^ 3 := BigEndian.value_lt [a, b, c]
  rw [hzero, UInt32.zero_or, hvalue] at hbits
  rw [← UInt32.toNat_toBitVec, hbits, BitVec.toNat_ofNat]
  exact Nat.mod_eq_of_lt (hlt.trans (by decide))

theorem value_concat_zero (bytes : List UInt8) :
    BigEndian.value (bytes ++ [0]) = BigEndian.value bytes * 256 := by
  simp [BigEndian.value]

theorem sextets_bytes {bytes : List UInt8} {k r : Nat} (hr : r < 6)
    (hlen : 8 * bytes.length + r = 6 * k) : Rfc4648.sextets (BitString.ofBytes bytes) =
      Rfc4648.digits k (BigEndian.value bytes * 2 ^ r) := by
  rw [← BitString.value_ofBytes]
  exact Rfc4648.sextets_eq hr (by rw [BitString.length_ofBytes, hlen])

theorem base64Encode_eq (data : List UInt8) : base64Encode data = Rfc4648.encode data := by
  induction data using base64Encode.induct with
  | case1 a b c rest ih =>
    have hn := toNat_group a b c
    have hbytes : BitString.ofBytes (a :: b :: c :: rest) =
        BitString.ofBytes [a, b, c] ++ BitString.ofBytes rest :=
      BitString.ofBytes_append [a, b, c] rest
    have hlen : (BitString.ofBytes [a, b, c]).length = 6 * 4 := BitString.length_ofBytes _
    have hdigits : Rfc4648.sextets (BitString.ofBytes [a, b, c]) =
        Rfc4648.digits 4 (BigEndian.value [a, b, c] * 2 ^ 0) := sextets_bytes (by decide) rfl
    have hpads : (a :: b :: c :: rest).length % 3 = rest.length % 3 := Nat.add_mod_right _ 3
    rw [base64Encode, base64Char_shift hn (by decide), base64Char_shift hn (by decide),
      base64Char_shift hn (by decide), base64Char_eq hn, ih, Rfc4648.encode, Rfc4648.encode, hbytes,
      Rfc4648.sextets_append hlen, hdigits, hpads]
    simp [Rfc4648.digits]
  | case2 a b =>
    have hn : ((a.toUInt32 <<< 16) ||| (b.toUInt32 <<< 8)).toNat = BigEndian.value [a, b] * 256 := by
      rw [← value_concat_zero]
      exact (congrArg UInt32.toNat UInt32.or_zero.symm).trans (toNat_group a b 0)
    have hdigits : Rfc4648.sextets (BitString.ofBytes [a, b]) =
        Rfc4648.digits 3 (BigEndian.value [a, b] * 2 ^ 2) := sextets_bytes (by decide) rfl
    rw [base64Encode, base64Char_shift hn (by decide), base64Char_shift hn (by decide),
      base64Char_shift hn (by decide), Rfc4648.encode, hdigits]
    generalize BigEndian.value [a, b] = v
    have h18 : v * 256 / 2 ^ 18 = v * 2 ^ 2 / 64 ^ 2 := by omega
    have h12 : v * 256 / 2 ^ 12 = v * 2 ^ 2 / 64 := by omega
    have h6 : v * 256 / 2 ^ 6 = v * 2 ^ 2 := by omega
    show [Rfc4648.letter (v * 256 / 2 ^ 18 % 64), Rfc4648.letter (v * 256 / 2 ^ 12 % 64),
      Rfc4648.letter (v * 256 / 2 ^ 6 % 64), 0x3D] = _
    rw [h18, h12, h6]
    simp [Rfc4648.digits, Rfc4648.pad]
  | case3 a =>
    have hn : (a.toUInt32 <<< 16).toNat = BigEndian.value [a] * 256 * 256 := by
      rw [← value_concat_zero, ← value_concat_zero]
      exact (congrArg UInt32.toNat (UInt32.or_zero.trans UInt32.or_zero).symm).trans
        (toNat_group a 0 0)
    have hdigits : Rfc4648.sextets (BitString.ofBytes [a]) =
        Rfc4648.digits 2 (BigEndian.value [a] * 2 ^ 4) := sextets_bytes (by decide) rfl
    rw [base64Encode, base64Char_shift hn (by decide), base64Char_shift hn (by decide),
      Rfc4648.encode, hdigits]
    generalize BigEndian.value [a] = v
    have h18 : v * 256 * 256 / 2 ^ 18 = v * 2 ^ 4 / 64 := by omega
    have h12 : v * 256 * 256 / 2 ^ 12 = v * 2 ^ 4 := by omega
    show [Rfc4648.letter (v * 256 * 256 / 2 ^ 18 % 64), Rfc4648.letter (v * 256 * 256 / 2 ^ 12 % 64),
      0x3D, 0x3D] = _
    rw [h18, h12]
    simp [Rfc4648.digits, Rfc4648.pad]
  | case4 => simp [base64Encode, Rfc4648.encode, BitString.ofBytes]

/-! ### The accept key -/

theorem readRequest_sending (request : List UInt8) :
    StateExcept.Preserves ClientSocket.sending (readRequest request) := by
  induction request using readRequest.induct with
  | case1 request h ih =>
    rw [readRequest, if_pos h]
    exact (recv_sending 1).bind ih
  | case2 request h =>
    rw [readRequest, if_neg h]
    exact StateExcept.Preserves.pure _ _

theorem readWebsocketKey_sending (s : ClientSocket) : (readWebsocketKey s).2.sending = s.sending := by
  have hread := readRequest_sending []
  rw [readWebsocketKey]
  split
  · next h => exact hread.ok h
  · next h => exact hread.error h

theorem length_handshakeResponse (key : List UInt8) : (handshakeResponse key).length = 129 := by
  have hkey : (acceptKey key).length = 28 := by
    rw [acceptKey, base64Encode_eq, Rfc4648.length_encode, length_sha1]
  simp only [handshakeResponse, List.length_append, hkey]
  rfl

/-- A request with a key is answered in one `send`, if that takes it whole. -/
theorem acceptClient_whole {s : ClientSocket} (hkey : (readWebsocketKey s).1 ≠ [])
    (hsend : 129 ≤ s.sendPlan 0) : ∃ s', acceptClient s = (true, s') := by
  rcases hread : readWebsocketKey s with ⟨key, m⟩
  have hplan : m.sendPlan = s.sendPlan := by
    have hsending := readWebsocketKey_sending s
    rw [hread] at hsending
    exact congrArg Prod.fst hsending
  rw [hread] at hkey
  have hlength := length_handshakeResponse key
  have hne : handshakeResponse key ≠ [] := List.ne_nil_of_length_pos (by omega)
  refine ⟨m.sent (handshakeResponse key), ?_⟩
  rw [acceptClient, hread]
  simp only [if_neg hkey]
  exact sendAll_whole hne (by omega) (by rw [hplan]; omega)

/-- The accept key is the base 64 form of the SHA-1 digest of the key and the
GUID of RFC 6455, both as their standards define them. -/
theorem acceptKey_eq (key : List UInt8) :
    (∃ digest : List UInt8, digest.length = 20 ∧
      BitString.ofBytes digest = Rfc3174.sha1 (BitString.ofBytes
        (key ++ stringBytes "258EAFA5-E914-47DA-95CA-C5AB0DC85B11")) ∧
      acceptKey key = Rfc4648.encode digest) ∧
    (∀ input, BitString.ofBytes (sha1 input) = Rfc3174.sha1 (BitString.ofBytes input)) ∧
    ∀ data, base64Encode data = Rfc4648.encode data ∧
      (base64Encode data).length = 4 * ((data.length + 2) / 3) ∧
      (∀ c ∈ base64Encode data, c ∈ Rfc4648.alphabet ∨ c = Rfc4648.pad) ∧
      Rfc4648.decode (base64Encode data) = some data := by
  refine ⟨⟨sha1 (key ++ kWsMagicGuid), length_sha1 _, ofBytes_sha1 _, base64Encode_eq _⟩,
    ofBytes_sha1, fun data => ?_⟩
  rw [base64Encode_eq]
  exact ⟨rfl, Rfc4648.length_encode data, fun c hc => Rfc4648.mem_encode hc,
    Rfc4648.decode_encode data⟩

end Openaslc
