import Openaslc.Fips180
import Openaslc.Sha256Digest

/-! The hand-rolled SHA-1 of the WebSocket handshake, which computes the digest
of RFC 3174. -/

namespace Openaslc

/-! ### The code -/

def leftRotate (value bits : UInt32) : UInt32 := (value <<< bits) ||| (value >>> (32 - bits))

/-- The variables `h0` to `h4`, and `a` to `e` of a round. -/
structure Sha1Words where
  a : UInt32
  b : UInt32
  c : UInt32
  d : UInt32
  e : UInt32
  deriving DecidableEq

def sha1Initial : Sha1Words := ⟨0x67452301, 0xEFCDAB89, 0x98BADCFE, 0x10325476, 0xC3D2E1F0⟩

/-- The loops of the padding are the same as in `sha256_hex`. -/
def sha1Pad (input : List UInt8) : List UInt8 :=
  let bitLen := UInt64.ofNat input.length * 8
  padTo56 (input ++ [0x80]) ++
    (List.range 8).map fun i => ((bitLen >>> (UInt64.ofNat (7 - i) * 8)) &&& 0xFF).toUInt8

/-- The first `n` entries of `w`, filled from the bytes of one chunk. -/
def sha1Schedule (chunk : List UInt8) : Nat → Array UInt32
  | 0 => #[]
  | i + 1 =>
    let w := sha1Schedule chunk i
    if i < 16 then
      let byte j := (chunk.getD (i * 4 + j) 0).toUInt32
      w.push ((byte 0 <<< 24) ||| (byte 1 <<< 16) ||| (byte 2 <<< 8) ||| byte 3)
    else
      w.push (leftRotate
        (w.getD (i - 3) 0 ^^^ w.getD (i - 8) 0 ^^^ w.getD (i - 14) 0 ^^^ w.getD (i - 16) 0) 1)

def sha1Round (s : Sha1Words) (i : Nat) (w : UInt32) : Sha1Words :=
  let (f, k) : UInt32 × UInt32 :=
    if i < 20 then ((s.b &&& s.c) ||| (~~~s.b &&& s.d), 0x5A827999)
    else if i < 40 then (s.b ^^^ s.c ^^^ s.d, 0x6ED9EBA1)
    else if i < 60 then ((s.b &&& s.c) ||| (s.b &&& s.d) ||| (s.c &&& s.d), 0x8F1BBCDC)
    else (s.b ^^^ s.c ^^^ s.d, 0xCA62C1D6)
  let temp := leftRotate s.a 5 + f + s.e + k + w
  ⟨temp, s.a, leftRotate s.b 30, s.c, s.d⟩

def sha1Chunk (h : Sha1Words) (chunk : List UInt8) : Sha1Words :=
  let w := sha1Schedule chunk 80
  let s := (List.range 80).foldl (fun s i => sha1Round s i (w.getD i 0)) h
  ⟨h.a + s.a, h.b + s.b, h.c + s.c, h.d + s.d, h.e + s.e⟩

def sha1Chunks (msg : List UInt8) : Sha1Words :=
  (List.range ((msg.length + 63) / 64)).foldl (fun h k => sha1Chunk h (msg.drop (64 * k)))
    sha1Initial

def wordBytes (word : UInt32) : List UInt8 :=
  [((word >>> 24) &&& 0xFF).toUInt8, ((word >>> 16) &&& 0xFF).toUInt8,
    ((word >>> 8) &&& 0xFF).toUInt8, (word &&& 0xFF).toUInt8]

def sha1 (input : List UInt8) : List UInt8 :=
  let h := sha1Chunks (sha1Pad input)
  wordBytes h.a ++ wordBytes h.b ++ wordBytes h.c ++ wordBytes h.d ++ wordBytes h.e

/-! ### Schedule and rounds -/

theorem toBitVec_leftRotate (x : UInt32) {n : UInt32} (hpos : 0 < n.toNat) (hlt : n.toNat < 32) :
    (leftRotate x n).toBitVec = x.toBitVec.rotateLeft n.toNat := by
  have hother := toNat_complement hlt
  rw [leftRotate, UInt32.toBitVec_or, toBitVec_shiftLeft_of_lt x hlt,
    toBitVec_shiftRight_of_lt x (by omega), hother, BitVec.rotateLeft_def, Nat.mod_eq_of_lt hlt]

theorem sha1Schedule_push (chunk : List UInt8) (n : Nat) :
    ∃ x, sha1Schedule chunk (n + 1) = (sha1Schedule chunk n).push x := by
  rw [sha1Schedule]
  split <;> exact ⟨_, rfl⟩

theorem size_sha1Schedule (chunk : List UInt8) (n : Nat) : (sha1Schedule chunk n).size = n := by
  induction n with
  | zero => rfl
  | succ n ih =>
    obtain ⟨x, hx⟩ := sha1Schedule_push chunk n
    rw [hx, Array.size_push, ih]

theorem sha1Schedule_eq {chunk : List UInt8} {m : Nat → Fips180.Word} (hm : ReadsWords chunk m)
    {t n : Nat} (ht : t < n) :
    ((sha1Schedule chunk n).getD t 0).toBitVec = Rfc3174.schedule m t := by
  induction t using Nat.strong_induction_on generalizing n with
  | h t ih =>
    have hsize := size_sha1Schedule chunk t
    rw [getD_filled (size_sha1Schedule chunk) (sha1Schedule_push chunk) 0 ht, sha1Schedule,
      Rfc3174.schedule]
    by_cases hfirst : t < 16
    · simp only [if_pos hfirst]
      rw [getD_push, hsize, if_pos rfl]
      exact hm t hfirst
    · have hbefore : ∀ k, 0 < k → ((sha1Schedule chunk t).getD (t - k) 0).toBitVec =
          Rfc3174.schedule m (t - k) :=
        fun k hk => ih (t - k) (by omega) (by omega)
      simp only [if_neg hfirst]
      rw [getD_push, hsize, if_pos rfl, toBitVec_leftRotate _ (by decide) (by decide)]
      simp only [UInt32.toBitVec_xor, hbefore 3 (by decide), hbefore 8 (by decide),
        hbefore 14 (by decide), hbefore 16 (by decide)]
      rfl

def Sha1Words.toRfc (s : Sha1Words) : Rfc3174.Hash :=
  ⟨s.a.toBitVec, s.b.toBitVec, s.c.toBitVec, s.d.toBitVec, s.e.toBitVec⟩

theorem sha1Round_eq {w : Nat → Fips180.Word} {t : Nat} {wt : UInt32} (hw : wt.toBitVec = w t)
    (s : Sha1Words) : (sha1Round s t wt).toRfc = Rfc3174.step w s.toRfc t := by
  have h5 : (leftRotate s.a 5).toBitVec = s.a.toBitVec.rotateLeft 5 :=
    toBitVec_leftRotate _ (by decide) (by decide)
  have h30 : (leftRotate s.b 30).toBitVec = s.b.toBitVec.rotateLeft 30 :=
    toBitVec_leftRotate _ (by decide) (by decide)
  -- the code adds the constant before the word of the schedule
  have hcomm : ∀ x y z v : Fips180.Word, x + y + z + w t + v = x + y + z + v + w t :=
    fun x y z v => by ac_rfl
  simp only [Rfc3174.step, Rfc3174.f, Rfc3174.k, Sha1Words.toRfc, hcomm]
  rw [sha1Round]
  by_cases h20 : t < 20
  · simp only [if_pos h20, UInt32.toBitVec_add, h5, h30, hw]
    rfl
  by_cases h40 : t < 40
  · simp only [if_neg h20, if_pos h40, UInt32.toBitVec_add, h5, h30, hw]
    rfl
  by_cases h60 : t < 60
  · simp only [if_neg h20, if_neg h40, if_pos h60, UInt32.toBitVec_add, h5, h30, hw]
    rfl
  · simp only [if_neg h20, if_neg h40, if_neg h60, UInt32.toBitVec_add, h5, h30, hw]
    rfl

/-! ### Chunks and digest -/

theorem sha1Chunk_eq {chunk : List UInt8} {m : Nat → Fips180.Word} (hm : ReadsWords chunk m)
    (h : Sha1Words) : (sha1Chunk h chunk).toRfc = Rfc3174.compress h.toRfc m := by
  have hrounds : ((List.range 80).foldl (fun s i => sha1Round s i
      ((sha1Schedule chunk 80).getD i 0)) h).toRfc =
      (List.range 80).foldl (Rfc3174.step (Rfc3174.schedule m)) h.toRfc := by
    refine foldl_view Sha1Words.toRfc (fun t ht s => ?_) h
    exact sha1Round_eq (sha1Schedule_eq hm (List.mem_range.mp ht)) s
  rw [sha1Chunk, Rfc3174.compress, ← hrounds]
  rfl

theorem sha1Chunks_eq (input : List UInt8) : (sha1Chunks (sha1Pad input)).toRfc =
    Fips180.chain Rfc3174.compress Rfc3174.initial (BitString.ofBytes input) := by
  have hpad : sha1Pad input = sha256Pad input := rfl
  rw [hpad]
  exact chain_eq Sha1Words.toRfc (fun _ _ hm => sha1Chunk_eq hm) input sha1Initial

theorem toUInt8_and (word : UInt32) : (word &&& 0xFF).toUInt8 = UInt8.ofNat word.toNat := by
  apply UInt8.toNat_inj.mp
  rw [UInt32.toNat_toUInt8, UInt32.toNat_and, UInt8.toNat_ofNat']
  show (word.toNat &&& 255) % 2 ^ 8 = _
  rw [Nat.and_two_pow_sub_one_eq_mod _ 8, Nat.mod_mod]

theorem wordBytes_eq (word : UInt32) : wordBytes word = BigEndian.encode 4 word.toNat := by
  have hbyte : ∀ k : UInt32, k.toNat < 32 →
      ((word >>> k) &&& 0xFF).toUInt8 = UInt8.ofNat (word.toNat / 2 ^ k.toNat) := fun k hk => by
    rw [toUInt8_and, UInt32.toNat_shiftRight, Nat.mod_eq_of_lt hk, Nat.shiftRight_eq_div_pow]
  rw [wordBytes, hbyte 24 (by decide), hbyte 16 (by decide), hbyte 8 (by decide), toUInt8_and]
  simp [BigEndian.encode]

theorem ofBytes_wordBytes (word : UInt32) :
    BitString.ofBytes (wordBytes word) = BitString.ofBitVec word.toBitVec := by
  rw [wordBytes_eq, BitString.ofBytes_encode]
  exact congrArg BitString.ofBitVec (BitVec.eq_of_toNat_eq (Nat.mod_eq_of_lt word.toNat_lt))

theorem length_sha1 (input : List UInt8) : (sha1 input).length = 20 := rfl

/-- The bits of the digest are those of the standard. -/
theorem ofBytes_sha1 (input : List UInt8) :
    BitString.ofBytes (sha1 input) = Rfc3174.sha1 (BitString.ofBytes input) := by
  rw [Rfc3174.sha1, ← sha1Chunks_eq, sha1]
  simp only [BitString.ofBytes_append, ofBytes_wordBytes]
  rfl

end Openaslc
