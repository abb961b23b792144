import Mathlib

/-! The hand-rolled SHA-256 that names commits. A `std::string` is hashed as
its bytes, one for each character. -/

namespace Openaslc

def kSha256K : List UInt32 := [
  0x428a2f98, 0x71374491, 0xb5c0fbcf, 0xe9b5dba5, 0x3956c25b, 0x59f111f1, 0x923f82a4, 0xab1c5ed5,
  0xd807aa98, 0x12835b01, 0x243185be, 0x550c7dc3, 0x72be5d74, 0x80deb1fe, 0x9bdc06a7, 0xc19bf174,
  0xe49b69c1, 0xefbe4786, 0x0fc19dc6, 0x240ca1cc, 0x2de92c6f, 0x4a7484aa, 0x5cb0a9dc, 0x76f988da,
  0x983e5152, 0xa831c66d, 0xb00327c8, 0xbf597fc7, 0xc6e00bf3, 0xd5a79147, 0x06ca6351, 0x14292967,
  0x27b70a85, 0x2e1b2138, 0x4d2c6dfc, 0x53380d13, 0x650a7354, 0x766a0abb, 0x81c2c92e, 0x92722c85,
  0xa2bfe8a1, 0xa81a664b, 0xc24b8b70, 0xc76c51a3, 0xd192e819, 0xd6990624, 0xf40e3585, 0x106aa070,
  0x19a4c116, 0x1e376c08, 0x2748774c, 0x34b0bcb5, 0x391c0cb3, 0x4ed8aa4a, 0x5b9cca4f, 0x682e6ff3,
  0x748f82ee, 0x78a5636f, 0x84c87814, 0x8cc70208, 0x90befffa, 0xa4506ceb, 0xbef9a3f7, 0xc67178f2]

def rotr (x n : UInt32) : UInt32 := (x >>> n) ||| (x <<< (32 - n))

/-- The array `h`, and the variables `a` to `hh` of a round. -/
structure Sha256Words where
  a : UInt32
  b : UInt32
  c : UInt32
  d : UInt32
  e : UInt32
  f : UInt32
  g : UInt32
  hh : UInt32
  deriving DecidableEq

def sha256Initial : Sha256Words :=
  ⟨0x6a09e667, 0xbb67ae85, 0x3c6ef372, 0xa54ff53a, 0x510e527f, 0x9b05688c, 0x1f83d9ab, 0x5be0cd19⟩

/-- The first `n` entries of `w`. -/
def sha256Schedule (block : List UInt8) : Nat → Array UInt32
  | 0 => #[]
  | i + 1 =>
    let w := sha256Schedule block i
    if i < 16 then
      let byte j := (block.getD (i * 4 + j) 0).toUInt32
      w.push ((byte 0 <<< 24) ||| (byte 1 <<< 16) ||| (byte 2 <<< 8) ||| byte 3)
    else
      let w15 := w.getD (i - 15) 0
      let w2 := w.getD (i - 2) 0
      let s0 := rotr w15 7 ^^^ rotr w15 18 ^^^ (w15 >>> 3)
      let s1 := rotr w2 17 ^^^ rotr w2 19 ^^^ (w2 >>> 10)
      w.push (w.getD (i - 16) 0 + s0 + w.getD (i - 7) 0 + s1)

def sha256Round (s : Sha256Words) (k w : UInt32) : Sha256Words :=
  let s1 := rotr s.e 6 ^^^ rotr s.e 11 ^^^ rotr s.e 25
  let ch := (s.e &&& s.f) ^^^ (~~~s.e &&& s.g)
  let temp1 := s.hh + s1 + ch + k + w
  let s0 := rotr s.a 2 ^^^ rotr s.a 13 ^^^ rotr s.a 22
  let maj := (s.a &&& s.b) ^^^ (s.a &&& s.c) ^^^ (s.b &&& s.c)
  let temp2 := s0 + maj
  ⟨temp1 + temp2, s.a, s.b, s.c, s.d + temp1, s.e, s.f, s.g⟩

def sha256ProcessBlock (h : Sha256Words) (block : List UInt8) : Sha256Words :=
  let w := sha256Schedule block 64
  let s := (List.range 64).foldl (fun s i => sha256Round s (kSha256K.getD i 0) (w.getD i 0)) h
  ⟨h.a + s.a, h.b + s.b, h.c + s.c, h.d + s.d, h.e + s.e, h.f + s.f, h.g + s.g, h.hh + s.hh⟩

/-- `while (data.size() % 64 != 56) data.push_back(0);` -/
def padTo56 (data : List UInt8) : List UInt8 :=
  if data.length % 64 = 56 then data else padTo56 (data ++ [0])
termination_by (120 - data.length % 64) % 64
decreasing_by
  simp only [List.length_append, List.length_singleton]
  omega

def sha256Pad (input : List UInt8) : List UInt8 :=
  let bitLen := UInt64.ofNat input.length * 8
  padTo56 (input ++ [0x80]) ++
    (List.range 8).map fun i => ((bitLen >>> (UInt64.ofNat (7 - i) * 8)) &&& 0xFF).toUInt8

def sha256Blocks (data : List UInt8) : Sha256Words :=
  (List.range ((data.length + 63) / 64)).foldl
    (fun h k => sha256ProcessBlock h (data.drop (64 * k))) sha256Initial

/-- `std::hex << std::setfill('0') << std::setw(8)` -/
def hexWord (x : UInt32) : String :=
  String.ofList ((Nat.toDigits 16 x.toNat).leftpad 8 '0')

def stringBytes (s : String) : List UInt8 := s.toList.map fun c => UInt8.ofNat c.toNat

def sha256Hex (input : String) : String :=
  let h := sha256Blocks (sha256Pad (stringBytes input))
  hexWord h.a ++ hexWord h.b ++ hexWord h.c ++ hexWord h.d ++ hexWord h.e ++ hexWord h.f ++
    hexWord h.g ++ hexWord h.hh

end Openaslc
