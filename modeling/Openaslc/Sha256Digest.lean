import Openaslc.Fips180
import Openaslc.Sha256

/-! The hand-rolled SHA-256 computes the digest of the Secure Hash Standard. -/

namespace Openaslc

/-- Two loops over one list, the second on what `view` shows of the first. -/
theorem foldl_view {α σ τ : Type} (view : σ → τ) {f : σ → α → σ} {g : τ → α → τ} {l : List α}
    (h : ∀ a ∈ l, ∀ s, view (f s a) = g (view s) a) (s : σ) :
    view (l.foldl f s) = l.foldl g (view s) := by
  induction l generalizing s with
  | nil => rfl
  | cons a l ih =>
    rw [List.foldl_cons, List.foldl_cons, ih fun b hb => h b (List.mem_cons_of_mem a hb),
      h a List.mem_cons_self]

/-! ### Padding -/

/-- The loop pushes the zeros that are missing, fewer than 64. -/
theorem padTo56_eq (data : List UInt8) :
    padTo56 data = data ++ List.replicate ((120 - data.length % 64) % 64) 0 := by
  induction data using padTo56.induct with
  | case1 data h =>
    have hnone : (120 - data.length % 64) % 64 = 0 := by omega
    rw [padTo56, if_pos h, hnone]
    simp
  | case2 data h ih =>
    have hone : (120 - data.length % 64) % 64 = 1 + (120 - (data ++ [0]).length % 64) % 64 := by
      rw [List.length_append, List.length_singleton]
      omega
    rw [padTo56, if_neg h, ih, hone, List.replicate_add, List.append_assoc]
    rfl

theorem zeros_bytes (n : Nat) : Fips180.zeros (8 * n) = 7 + 8 * ((120 - (n + 1) % 64) % 64) := by
  rw [Fips180.zeros, Nat.find_eq_iff]
  constructor
  · omega
  · intro k hk
    omega

theorem ofBytes_sha256Pad (input : List UInt8) :
    BitString.ofBytes (sha256Pad input) = Fips180.pad (BitString.ofBytes input) := by
  have hone : BitString.ofBytes [0x80] = true :: List.replicate 7 false := by
    rfl
  have hlength : (UInt64.ofNat input.length * 8).toNat = 8 * input.length % 256 ^ 8 := by
    rw [UInt64.toNat_mul, UInt64.toNat_ofNat', Nat.mod_mul_mod, Nat.mul_comm]
    rfl
  simp only [sha256Pad, Fips180.pad, padTo56_eq, BigEndian.map_shift, hlength, BigEndian.encode_mod,
    BitString.ofBytes_append, BitString.ofBytes_encode, hone, BitString.ofBytes_replicate,
    BitString.length_ofBytes, List.length_append, List.length_singleton, zeros_bytes,
    List.replicate_add, List.append_assoc]
  rfl

theorem length_sha256Pad (input : List UInt8) : (sha256Pad input).length % 64 = 0 := by
  have hbits := Fips180.length_pad (BitString.ofBytes input)
  rw [← ofBytes_sha256Pad, BitString.length_ofBytes] at hbits
  omega

/-! ### Words -/

theorem toNat_shifted (byte : UInt8) {k : UInt32} (hk : k.toNat ≤ 24) :
    (byte.toUInt32 <<< k).toNat = 2 ^ k.toNat * byte.toNat := by
  have hbyte := byte.toNat_lt
  have hpow : 2 ^ k.toNat ≤ 2 ^ 24 := Nat.pow_le_pow_right (by decide) hk
  have hmul : 2 ^ k.toNat * byte.toNat ≤ 2 ^ 24 * byte.toNat := Nat.mul_le_mul_right _ hpow
  rw [UInt32.toNat_shiftLeft, UInt8.toNat_toUInt32, Nat.mod_eq_of_lt (by omega : k.toNat < 32),
    Nat.shiftLeft_eq, Nat.mul_comm, Nat.mod_eq_of_lt (by omega)]

theorem toBitVec_bytes (a b c d : UInt8) :
    ((a.toUInt32 <<< 24) ||| (b.toUInt32 <<< 16) ||| (c.toUInt32 <<< 8) ||| d.toUInt32).toBitVec =
      BitVec.ofNat 32 (BigEndian.value [a, b, c, d]) := by
  have ha := a.toNat_lt
  have hb := b.toNat_lt
  have hc := c.toNat_lt
  have hd := d.toNat_lt
  have h24 : (a.toUInt32 <<< 24).toNat = 2 ^ 24 * a.toNat := toNat_shifted a (by decide)
  have h16 : (b.toUInt32 <<< 16).toNat = 2 ^ 16 * b.toNat := toNat_shifted b (by decide)
  have h8 : (c.toUInt32 <<< 8).toNat = 2 ^ 8 * c.toNat := toNat_shifted c (by decide)
  -- each byte fits below the ones before it, so that OR adds
  have hab : 2 ^ 24 * a.toNat ||| 2 ^ 16 * b.toNat = 2 ^ 16 * (256 * a.toNat + b.toNat) := by
    rw [← Nat.two_pow_add_eq_or_of_lt (by omega)]
    omega
  have habc : 2 ^ 16 * (256 * a.toNat + b.toNat) ||| 2 ^ 8 * c.toNat =
      2 ^ 8 * (256 * (256 * a.toNat + b.toNat) + c.toNat) := by
    rw [← Nat.two_pow_add_eq_or_of_lt (by omega)]
    omega
  have hvalue : BigEndian.value [a, b, c, d] =
      2 ^ 8 * (256 * (256 * a.toNat + b.toNat) + c.toNat) + d.toNat := by
    simp only [BigEndian.value, List.foldl_cons, List.foldl_nil]
    omega
  apply BitVec.eq_of_toNat_eq
  rw [UInt32.toNat_toBitVec, UInt32.toNat_or, UInt32.toNat_or, UInt32.toNat_or, h24, h16, h8, hab,
    habc, UInt8.toNat_toUInt32, ← Nat.two_pow_add_eq_or_of_lt hd, ← hvalue, BitVec.toNat_ofNat,
    Nat.mod_eq_of_lt (by omega)]

theorem toBitVec_shiftLeft_of_lt (x : UInt32) {n : UInt32} (h : n.toNat < 32) :
    (x <<< n).toBitVec = x.toBitVec <<< n.toNat := by
  have hn : n.toNat % 32 = n.toNat := Nat.mod_eq_of_lt h
  rw [UInt32.toBitVec_shiftLeft]
  show x.toBitVec <<< (n.toNat % 32) = _
  rw [hn]

theorem toBitVec_shiftRight_of_lt (x : UInt32) {n : UInt32} (h : n.toNat < 32) :
    (x >>> n).toBitVec = x.toBitVec >>> n.toNat := by
  have hn : n.toNat % 32 = n.toNat := Nat.mod_eq_of_lt h
  rw [UInt32.toBitVec_shiftRight]
  show x.toBitVec >>> (n.toNat % 32) = _
  rw [hn]

theorem toNat_complement {n : UInt32} (h : n.toNat < 32) : (32 - n).toNat = 32 - n.toNat :=
  UInt32.toNat_sub_of_le _ _ (UInt32.le_iff_toNat_le.mpr h.le)

theorem toBitVec_rotr (x : UInt32) {n : UInt32} (hpos : 0 < n.toNat) (hlt : n.toNat < 32) :
    (rotr x n).toBitVec = x.toBitVec.rotateRight n.toNat := by
  have hother := toNat_complement hlt
  rw [rotr, UInt32.toBitVec_or, toBitVec_shiftRight_of_lt x hlt,
    toBitVec_shiftLeft_of_lt x (by omega), hother, BitVec.rotateRight_def, Nat.mod_eq_of_lt hlt]

theorem take_four {bytes : List UInt8} {n : Nat} (h : n + 4 ≤ bytes.length) :
    (bytes.drop n).take 4 =
      [bytes.getD n 0, bytes.getD (n + 1) 0, bytes.getD (n + 2) 0, bytes.getD (n + 3) 0] := by
  have hget : ∀ k, n + k < bytes.length → bytes.drop (n + k) =
      bytes.getD (n + k) 0 :: bytes.drop (n + k + 1) := fun k hk => by
    rw [List.drop_eq_getElem_cons hk, List.getD_eq_getElem _ _ hk]
  rw [← Nat.add_zero n, hget 0 (by omega), hget 1 (by omega), hget 2 (by omega), hget 3 (by omega)]
  rfl

/-- Sixteen words, each put together from four bytes of the block. -/
def ReadsWords (block : List UInt8) (m : Nat → Fips180.Word) : Prop :=
  ∀ j < 16, let byte k := (block.getD (j * 4 + k) 0).toUInt32
    ((byte 0 <<< 24) ||| (byte 1 <<< 16) ||| (byte 2 <<< 8) ||| byte 3).toBitVec = m j

/-- The words that the code reads are the words of the message. -/
theorem readsWords_blockWord {data : List UInt8} {i : Nat} (h : 64 * i + 64 ≤ data.length) :
    ReadsWords (data.drop (64 * i)) (Fips180.blockWord (BitString.ofBytes data) i) := by
  intro j hj
  have hfour : (data.drop (64 * i + 4 * j)).take 4 =
      [(data.drop (64 * i)).getD (j * 4 + 0) 0, (data.drop (64 * i)).getD (j * 4 + 1) 0,
        (data.drop (64 * i)).getD (j * 4 + 2) 0, (data.drop (64 * i)).getD (j * 4 + 3) 0] := by
    rw [← List.drop_drop, Nat.mul_comm 4 j]
    refine take_four ?_
    rw [List.length_drop]
    omega
  have hbits : 512 * i + 32 * j = 8 * (64 * i + 4 * j) := by omega
  have htake : (BitString.ofBytes (data.drop (64 * i + 4 * j))).take 32 =
      BitString.ofBytes ((data.drop (64 * i + 4 * j)).take 4) := BitString.ofBytes_take _ 4
  rw [Fips180.blockWord, hbits, BitString.ofBytes_drop, htake, BitString.value_ofBytes, hfour]
  exact toBitVec_bytes _ _ _ _

/-! ### Schedule -/

theorem getD_push {α : Type} (w : Array α) (x d : α) (i : Nat) :
    (w.push x).getD i d = if i = w.size then x else w.getD i d := by
  rw [Array.getD_eq_getD_getElem?, Array.getD_eq_getD_getElem?, Array.getElem?_push]
  split <;> rfl

/-- In an array filled from its front, an entry stays as it was put in. -/
theorem getD_filled {α : Type} {fill : Nat → Array α} (hsize : ∀ n, (fill n).size = n)
    (hpush : ∀ n, ∃ x, fill (n + 1) = (fill n).push x) (d : α) {t n : Nat} (ht : t < n) :
    (fill n).getD t d = (fill (t + 1)).getD t d := by
  induction n with
  | zero => omega
  | succ n ih =>
    by_cases hlast : t = n
    · rw [hlast]
    · obtain ⟨x, hn⟩ := hpush n
      rw [hn, getD_push, hsize, if_neg hlast, ih (by omega)]

theorem sha256Schedule_push (block : List UInt8) (n : Nat) :
    ∃ x, sha256Schedule block (n + 1) = (sha256Schedule block n).push x := by
  rw [sha256Schedule]
  split <;> exact ⟨_, rfl⟩

theorem size_sha256Schedule (block : List UInt8) (n : Nat) : (sha256Schedule block n).size = n := by
  induction n with
  | zero => rfl
  | succ n ih =>
    obtain ⟨x, hx⟩ := sha256Schedule_push block n
    rw [hx, Array.size_push, ih]

theorem toBitVec_smallSigma0 (x : UInt32) :
    (rotr x 7 ^^^ rotr x 18 ^^^ (x >>> 3)).toBitVec = Fips180.smallSigma0 x.toBitVec := by
  rw [UInt32.toBitVec_xor, UInt32.toBitVec_xor, toBitVec_rotr x (by decide) (by decide),
    toBitVec_rotr x (by decide) (by decide)]
  rfl

theorem toBitVec_smallSigma1 (x : UInt32) :
    (rotr x 17 ^^^ rotr x 19 ^^^ (x >>> 10)).toBitVec = Fips180.smallSigma1 x.toBitVec := by
  rw [UInt32.toBitVec_xor, UInt32.toBitVec_xor, toBitVec_rotr x (by decide) (by decide),
    toBitVec_rotr x (by decide) (by decide)]
  rfl

/-- The array filled in place holds the schedule: each entry reads earlier ones only. -/
theorem sha256Schedule_eq {block : List UInt8} {m : Nat → Fips180.Word} (hm : ReadsWords block m)
    {t n : Nat} (ht : t < n) :
    ((sha256Schedule block n).getD t 0).toBitVec = Fips180.sha256Schedule m t := by
  induction t using Nat.strong_induction_on generalizing n with
  | h t ih =>
    have hsize := size_sha256Schedule block t
    rw [getD_filled (size_sha256Schedule block) (sha256Schedule_push block) 0 ht, sha256Schedule,
      Fips180.sha256Schedule]
    by_cases hfirst : t < 16
    · simp only [if_pos hfirst]
      rw [getD_push, hsize, if_pos rfl]
      exact hm t hfirst
    · have hbefore : ∀ k, 0 < k → ((sha256Schedule block t).getD (t - k) 0).toBitVec =
          Fips180.sha256Schedule m (t - k) :=
        fun k hk => ih (t - k) (by omega) (by omega)
      simp only [if_neg hfirst]
      rw [getD_push, hsize, if_pos rfl]
      simp only [UInt32.toBitVec_add, toBitVec_smallSigma0, toBitVec_smallSigma1,
        hbefore 16 (by decide), hbefore 7 (by decide), hbefore 15 (by decide), hbefore 2 (by decide)]
      ac_rfl

/-! ### Rounds -/

def Sha256Words.toFips (s : Sha256Words) : Fips180.Sha256Hash :=
  ⟨s.a.toBitVec, s.b.toBitVec, s.c.toBitVec, s.d.toBitVec, s.e.toBitVec, s.f.toBitVec,
    s.g.toBitVec, s.hh.toBitVec⟩

theorem toBitVec_bigSigma0 (x : UInt32) :
    (rotr x 2 ^^^ rotr x 13 ^^^ rotr x 22).toBitVec = Fips180.bigSigma0 x.toBitVec := by
  rw [UInt32.toBitVec_xor, UInt32.toBitVec_xor, toBitVec_rotr x (by decide) (by decide),
    toBitVec_rotr x (by decide) (by decide), toBitVec_rotr x (by decide) (by decide)]
  rfl

theorem toBitVec_bigSigma1 (x : UInt32) :
    (rotr x 6 ^^^ rotr x 11 ^^^ rotr x 25).toBitVec = Fips180.bigSigma1 x.toBitVec := by
  rw [UInt32.toBitVec_xor, UInt32.toBitVec_xor, toBitVec_rotr x (by decide) (by decide),
    toBitVec_rotr x (by decide) (by decide), toBitVec_rotr x (by decide) (by decide)]
  rfl

theorem sha256Round_eq {w : Nat → Fips180.Word} {t : Nat} {k wt : UInt32}
    (hk : k.toBitVec = Fips180.sha256K t) (hw : wt.toBitVec = w t) (s : Sha256Words) :
    (sha256Round s k wt).toFips = Fips180.sha256Step w s.toFips t := by
  simp only [sha256Round, Sha256Words.toFips, Fips180.sha256Step, UInt32.toBitVec_add,
    toBitVec_bigSigma0, toBitVec_bigSigma1, hk, hw]
  rfl

/-! ### Constants -/

/-- A word is the fractional part of a root that lies between `q + k / 2 ^ 32` and
the next such number. -/
theorem rootFraction_word {degree p q : Nat} {k : UInt32} (hdegree : degree ≠ 0)
    (hle : (q * 2 ^ 32 + k.toNat) ^ degree ≤ p * 2 ^ (32 * degree))
    (hlt : p * 2 ^ (32 * degree) < (q * 2 ^ 32 + k.toNat + 1) ^ degree) :
    k.toBitVec = Fips180.rootFraction degree p := by
  rw [Fips180.rootFraction_eq hdegree hle hlt]
  apply BitVec.eq_of_toNat_eq
  have hk := k.toNat_lt
  rw [BitVec.toNat_ofNat, UInt32.toNat_toBitVec]
  omega

theorem cubeRoots : ∀ t < 64, ∃ q < 7,
    (q * 2 ^ 32 + (kSha256K.getD t 0).toNat) ^ 3 ≤ Fips180.firstPrimes.getD t 0 * 2 ^ (32 * 3) ∧
      Fips180.firstPrimes.getD t 0 * 2 ^ (32 * 3) <
        (q * 2 ^ 32 + (kSha256K.getD t 0).toNat + 1) ^ 3 := by
  decide +kernel

theorem kSha256K_eq {t : Nat} (h : t < 64) : (kSha256K.getD t 0).toBitVec = Fips180.sha256K t := by
  obtain ⟨q, _, hle, hlt⟩ := cubeRoots t h
  rw [Fips180.sha256K, Fips180.prime_eq h]
  exact rootFraction_word (by decide) hle hlt

def sha256InitialWords : List UInt32 :=
  [sha256Initial.a, sha256Initial.b, sha256Initial.c, sha256Initial.d, sha256Initial.e,
    sha256Initial.f, sha256Initial.g, sha256Initial.hh]

theorem sha256Initial_eq : sha256Initial.toFips = Fips180.sha256Initial := by
  have hroots : ∀ t < 8, ∃ q < 5,
      (q * 2 ^ 32 + (sha256InitialWords.getD t 0).toNat) ^ 2 ≤
        Fips180.firstPrimes.getD t 0 * 2 ^ (32 * 2) ∧
      Fips180.firstPrimes.getD t 0 * 2 ^ (32 * 2) <
        (q * 2 ^ 32 + (sha256InitialWords.getD t 0).toNat + 1) ^ 2 := by
    decide +kernel
  have hword : ∀ t < 8, (sha256InitialWords.getD t 0).toBitVec =
      Fips180.rootFraction 2 (Fips180.prime t) := fun t ht => by
    obtain ⟨q, _, hle, hlt⟩ := hroots t ht
    rw [Fips180.prime_eq (by omega)]
    exact rootFraction_word (by decide) hle hlt
  rw [Fips180.sha256Initial, ← hword 0 (by decide), ← hword 1 (by decide), ← hword 2 (by decide),
    ← hword 3 (by decide), ← hword 4 (by decide), ← hword 5 (by decide), ← hword 6 (by decide),
    ← hword 7 (by decide)]
  rfl

/-! ### Blocks and digest -/

theorem sha256ProcessBlock_eq {block : List UInt8} {m : Nat → Fips180.Word}
    (hm : ReadsWords block m) (h : Sha256Words) :
    (sha256ProcessBlock h block).toFips = Fips180.sha256Compress h.toFips m := by
  have hrounds : ((List.range 64).foldl (fun s i => sha256Round s (kSha256K.getD i 0)
      ((sha256Schedule block 64).getD i 0)) h).toFips =
      (List.range 64).foldl (Fips180.sha256Step (Fips180.sha256Schedule m)) h.toFips := by
    refine foldl_view Sha256Words.toFips (fun t ht s => ?_) h
    have hlt := List.mem_range.mp ht
    exact sha256Round_eq (kSha256K_eq hlt) (sha256Schedule_eq hm hlt) s
  rw [sha256ProcessBlock, Fips180.sha256Compress, ← hrounds]
  simp only [Sha256Words.toFips, Fips180.Sha256Hash.add, UInt32.toBitVec_add, BitVec.add_comm]

/-- The loop over the blocks of the padded input, for either hash function. -/
theorem chain_eq {σ Hash : Type} (view : σ → Hash) {process : σ → List UInt8 → σ}
    {compress : Hash → (Nat → Fips180.Word) → Hash}
    (hprocess : ∀ block m, ReadsWords block m → ∀ s, view (process s block) = compress (view s) m)
    (input : List UInt8) (s : σ) :
    view ((List.range (((sha256Pad input).length + 63) / 64)).foldl
      (fun s k => process s ((sha256Pad input).drop (64 * k))) s) =
      Fips180.chain compress (view s) (BitString.ofBytes input) := by
  have hlen := length_sha256Pad input
  have hcount : ((sha256Pad input).length + 63) / 64 =
      (BitString.ofBytes (sha256Pad input)).length / 512 := by
    rw [BitString.length_ofBytes]
    omega
  rw [Fips180.chain, ← ofBytes_sha256Pad, hcount]
  refine foldl_view view (fun i hi s => ?_) s
  rw [List.mem_range, BitString.length_ofBytes] at hi
  exact hprocess _ _ (readsWords_blockWord (by omega)) s

theorem sha256Blocks_eq (input : List UInt8) : (sha256Blocks (sha256Pad input)).toFips =
    Fips180.chain Fips180.sha256Compress Fips180.sha256Initial (BitString.ofBytes input) := by
  rw [← sha256Initial_eq]
  exact chain_eq Sha256Words.toFips (fun _ _ hm => sha256ProcessBlock_eq hm) input sha256Initial

theorem hexWord_eq (x : UInt32) : (hexWord x).toList = BitString.hex 8 x.toNat := by
  rw [hexWord, String.toList_ofList]
  exact BitString.leftpad_toDigits x.toNat_lt

theorem sha256Hex_digest (input : String) : (sha256Hex input).toList =
    BitString.hex 64 (BitString.value (Fips180.sha256 (BitString.ofBytes (stringBytes input)))) := by
  have hblocks := sha256Blocks_eq (stringBytes input)
  have hword : ∀ (j : Nat) (l : List Bool) (x : UInt32),
      BitString.hex (j + 8) (BitString.value (l ++ BitString.ofBitVec x.toBitVec)) =
        BitString.hex j (BitString.value l) ++ (hexWord x).toList := fun j l x => by
    rw [BitString.value_append, BitString.value_ofBitVec, BitString.length_ofBitVec, hexWord_eq]
    exact BitString.hex_add j _ x.toNat_lt
  rw [Fips180.sha256, ← hblocks, sha256Hex]
  generalize sha256Blocks (sha256Pad (stringBytes input)) = h
  simp only [Sha256Words.toFips, Fips180.Sha256Hash.bits, String.toList_append]
  rw [hword 56, hword 48, hword 40, hword 32, hword 24, hword 16, hword 8, hexWord_eq,
    BitString.value_ofBitVec]
  rfl

/-- The hand-rolled function computes the standard's digest of every byte
string, pads within 64 steps and reads inside the padded buffer. -/
theorem sha256Hex_eq (input : String) :
    (sha256Hex input).toList = BitString.hex 64
      (BitString.value (Fips180.sha256 (BitString.ofBytes (stringBytes input)))) ∧
    (sha256Hex input).toList.length = 64 ∧
    (∃ k < 64, padTo56 (stringBytes input ++ [0x80]) =
      stringBytes input ++ [0x80] ++ List.replicate k 0) ∧
    ∀ k < ((sha256Pad (stringBytes input)).length + 63) / 64,
      64 * k + 64 ≤ (sha256Pad (stringBytes input)).length := by
  refine ⟨sha256Hex_digest input, ?_, ⟨_, Nat.mod_lt _ (by decide), padTo56_eq _⟩, ?_⟩
  · rw [sha256Hex_digest, BitString.length_hex]
  · have hlen := length_sha256Pad (stringBytes input)
    intro k hk
    omega

end Openaslc
