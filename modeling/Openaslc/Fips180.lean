import Openaslc.BitString

/-! The Secure Hash Standard, on messages of bits: padding, blocks of sixteen
words, SHA-1 and SHA-256. -/

namespace Fips180

abbrev Word := BitVec 32

/-! ### Preprocessing -/

theorem exists_zeros (l : Nat) : ∃ k, (l + 1 + k) % 512 = 448 := ⟨447 + 511 * l, by omega⟩

/-- How many zeros follow the one: the least number that leaves 64 bits to the
end of a block. -/
def zeros (l : Nat) : Nat := Nat.find (exists_zeros l)

def pad (message : List Bool) : List Bool :=
  message ++ true :: (List.replicate (zeros message.length) false ++
    BitString.ofBitVec (BitVec.ofNat 64 message.length))

theorem length_pad (message : List Bool) : (pad message).length % 512 = 0 := by
  have hzeros : (message.length + 1 + zeros message.length) % 512 = 448 :=
    Nat.find_spec (exists_zeros message.length)
  simp only [pad, List.length_append, List.length_cons, List.length_replicate,
    BitString.length_ofBitVec]
  omega

/-- Word `j` of block `i`. -/
def blockWord (padded : List Bool) (i j : Nat) : Word :=
  BitVec.ofNat 32 (BitString.value ((padded.drop (512 * i + 32 * j)).take 32))

/-- The blocks in order, each with the hash value that the one before left. -/
def chain {Hash : Type} (compress : Hash → (Nat → Word) → Hash) (initial : Hash)
    (message : List Bool) : Hash :=
  (List.range ((pad message).length / 512)).foldl
    (fun h i => compress h (blockWord (pad message) i)) initial

/-! ### Constants -/

/-- The first 32 bits of the fractional part of the `degree`-th root of `n`. -/
def rootFraction (degree n : Nat) : Word :=
  BitVec.ofNat 32 (Nat.findGreatest (fun r => r ^ degree ≤ n * 2 ^ (32 * degree)) (n * 2 ^ 32))

theorem rootFraction_eq {degree n r : Nat} (hdegree : degree ≠ 0)
    (hle : r ^ degree ≤ n * 2 ^ (32 * degree)) (hlt : n * 2 ^ (32 * degree) < (r + 1) ^ degree) :
    rootFraction degree n = BitVec.ofNat 32 r := by
  have hbound : r ≤ n * 2 ^ 32 := by
    rcases Nat.eq_zero_or_pos n with rfl | hn
    · simpa [hdegree] using hle
    · by_contra hgt
      have hpow : (n * 2 ^ 32) ^ degree < r ^ degree := Nat.pow_lt_pow_left (by omega) hdegree
      have hself : n ≤ n ^ degree := Nat.le_self_pow hdegree n
      rw [mul_pow, ← pow_mul] at hpow
      have hmul := Nat.mul_le_mul_right (2 ^ (32 * degree)) hself
      omega
  have hgreatest : Nat.findGreatest (fun r => r ^ degree ≤ n * 2 ^ (32 * degree)) (n * 2 ^ 32) =
      r := by
    rw [Nat.findGreatest_eq_iff]
    refine ⟨hbound, fun _ => hle, fun m hm _ hpow => ?_⟩
    have hmono : (r + 1) ^ degree ≤ m ^ degree := Nat.pow_le_pow_left hm degree
    omega
  rw [rootFraction, hgreatest]

/-- Prime number `t`, counted from 0. -/
noncomputable def prime (t : Nat) : Nat := Nat.nth Nat.Prime t

theorem length_filter_range (p : Nat → Prop) [DecidablePred p] (n : Nat) :
    ((List.range n).filter p).length = Nat.count p n := by
  induction n with
  | zero => rfl
  | succ n ih =>
    rw [List.range_succ, List.filter_append, List.length_append, ih, Nat.count_succ]
    by_cases hn : p n <;> simp [hn]

theorem nth_filter_range (p : Nat → Prop) [DecidablePred p] {n t x : Nat}
    (h : ((List.range n).filter p)[t]? = some x) : Nat.nth p t = x := by
  induction n with
  | zero => simp at h
  | succ n ih =>
    rw [List.range_succ, List.filter_append] at h
    by_cases ht : t < ((List.range n).filter p).length
    · rw [List.getElem?_append_left ht] at h
      exact ih h
    · rw [List.getElem?_append_right (Nat.le_of_not_lt ht), length_filter_range] at h
      rw [length_filter_range] at ht
      by_cases hn : p n
      · have hone : t - Nat.count p n = 0 ∧ n = x := by
          simpa [hn, List.getElem?_singleton, Nat.sub_eq_zero_iff_le] using h
        obtain rfl : t = Nat.count p n := by omega
        rw [Nat.nth_count hn, hone.2]
      · simp [hn] at h

def firstPrimes : List Nat :=
  [2, 3, 5, 7, 11, 13, 17, 19, 23, 29, 31, 37, 41, 43, 47, 53, 59, 61, 67, 71, 73, 79, 83, 89, 97,
    101, 103, 107, 109, 113, 127, 131, 137, 139, 149, 151, 157, 163, 167, 173, 179, 181, 191, 193,
    197, 199, 211, 223, 227, 229, 233, 239, 241, 251, 257, 263, 269, 271, 277, 281, 283, 293, 307,
    311]

theorem prime_iff_of_lt {n : Nat} (h : n < 324) :
    Nat.Prime n ↔ 2 ≤ n ∧ ∀ m ∈ List.range 18, 2 ≤ m → m < n → ¬ m ∣ n := by
  constructor
  · intro hn
    refine ⟨hn.two_le, fun m _ htwo hlt hdvd => ?_⟩
    rcases hn.eq_one_or_self_of_dvd m hdvd with rfl | rfl <;> omega
  · rintro ⟨htwo, hnone⟩
    rw [Nat.prime_def_le_sqrt]
    refine ⟨htwo, fun m hm hsqrt => ?_⟩
    have hsmall : Nat.sqrt n < 18 := Nat.sqrt_lt'.mpr h
    have hself : Nat.sqrt n < n := Nat.sqrt_lt_self htwo
    exact hnone m (List.mem_range.mpr (by omega)) hm (by omega)

theorem prime_eq {t : Nat} (h : t < 64) : prime t = firstPrimes.getD t 0 := by
  have hprimes : (List.range 312).filter (fun n => decide (Nat.Prime n)) = firstPrimes := by
    have hiff : ∀ n ∈ List.range 312, decide (Nat.Prime n) =
        decide (2 ≤ n ∧ ∀ m ∈ List.range 18, 2 ≤ m → m < n → ¬ m ∣ n) := fun n hn => by
      rw [decide_eq_decide]
      exact prime_iff_of_lt ((List.mem_range.mp hn).trans (by decide))
    rw [List.filter_congr hiff]
    decide +kernel
  have ht : t < firstPrimes.length := h
  apply nth_filter_range Nat.Prime (n := 312)
  rw [hprimes, List.getD_eq_getElem _ _ ht, List.getElem?_eq_getElem ht]

/-! ### SHA-256 -/

structure Sha256Hash where
  a : Word
  b : Word
  c : Word
  d : Word
  e : Word
  f : Word
  g : Word
  h : Word

namespace Sha256Hash

def add (x y : Sha256Hash) : Sha256Hash :=
  ⟨x.a + y.a, x.b + y.b, x.c + y.c, x.d + y.d, x.e + y.e, x.f + y.f, x.g + y.g, x.h + y.h⟩

def bits (x : Sha256Hash) : List Bool :=
  BitString.ofBitVec x.a ++ BitString.ofBitVec x.b ++ BitString.ofBitVec x.c ++
    BitString.ofBitVec x.d ++ BitString.ofBitVec x.e ++ BitString.ofBitVec x.f ++
    BitString.ofBitVec x.g ++ BitString.ofBitVec x.h

end Sha256Hash

def ch (x y z : Word) : Word := (x &&& y) ^^^ (~~~x &&& z)

def maj (x y z : Word) : Word := (x &&& y) ^^^ (x &&& z) ^^^ (y &&& z)

def bigSigma0 (x : Word) : Word := x.rotateRight 2 ^^^ x.rotateRight 13 ^^^ x.rotateRight 22

def bigSigma1 (x : Word) : Word := x.rotateRight 6 ^^^ x.rotateRight 11 ^^^ x.rotateRight 25

def smallSigma0 (x : Word) : Word := x.rotateRight 7 ^^^ x.rotateRight 18 ^^^ x >>> 3

def smallSigma1 (x : Word) : Word := x.rotateRight 17 ^^^ x.rotateRight 19 ^^^ x >>> 10

def sha256Schedule (m : Nat → Word) (t : Nat) : Word :=
  if t < 16 then m t
  else smallSigma1 (sha256Schedule m (t - 2)) + sha256Schedule m (t - 7) +
    smallSigma0 (sha256Schedule m (t - 15)) + sha256Schedule m (t - 16)

noncomputable def sha256K (t : Nat) : Word := rootFraction 3 (prime t)

noncomputable def sha256Initial : Sha256Hash :=
  ⟨rootFraction 2 (prime 0), rootFraction 2 (prime 1), rootFraction 2 (prime 2),
    rootFraction 2 (prime 3), rootFraction 2 (prime 4), rootFraction 2 (prime 5),
    rootFraction 2 (prime 6), rootFraction 2 (prime 7)⟩

noncomputable def sha256Step (w : Nat → Word) (x : Sha256Hash) (t : Nat) : Sha256Hash :=
  let t₁ := x.h + bigSigma1 x.e + ch x.e x.f x.g + sha256K t + w t
  let t₂ := bigSigma0 x.a + maj x.a x.b x.c
  ⟨t₁ + t₂, x.a, x.b, x.c, x.d + t₁, x.e, x.f, x.g⟩

noncomputable def sha256Compress (hash : Sha256Hash) (m : Nat → Word) : Sha256Hash :=
  ((List.range 64).foldl (sha256Step (sha256Schedule m)) hash).add hash

/-- The digest, 256 bits. -/
noncomputable def sha256 (message : List Bool) : List Bool :=
  (chain sha256Compress sha256Initial message).bits

end Fips180

/-! SHA-1 as RFC 3174 has it, with the padding and the blocks of the standard. -/

namespace Rfc3174

open Fips180

structure Hash where
  a : Word
  b : Word
  c : Word
  d : Word
  e : Word

def Hash.add (x y : Hash) : Hash := ⟨x.a + y.a, x.b + y.b, x.c + y.c, x.d + y.d, x.e + y.e⟩

def Hash.bits (x : Hash) : List Bool :=
  BitString.ofBitVec x.a ++ BitString.ofBitVec x.b ++ BitString.ofBitVec x.c ++
    BitString.ofBitVec x.d ++ BitString.ofBitVec x.e

def f (t : Nat) (b c d : Word) : Word :=
  if t < 20 then (b &&& c) ||| (~~~b &&& d)
  else if t < 40 then b ^^^ c ^^^ d
  else if t < 60 then (b &&& c) ||| (b &&& d) ||| (c &&& d)
  else b ^^^ c ^^^ d

def k (t : Nat) : Word :=
  if t < 20 then 0x5A827999 else if t < 40 then 0x6ED9EBA1 else if t < 60 then 0x8F1BBCDC
  else 0xCA62C1D6

def schedule (m : Nat → Word) (t : Nat) : Word :=
  if t < 16 then m t
  else (schedule m (t - 3) ^^^ schedule m (t - 8) ^^^ schedule m (t - 14) ^^^
    schedule m (t - 16)).rotateLeft 1

def initial : Hash := ⟨0x67452301, 0xEFCDAB89, 0x98BADCFE, 0x10325476, 0xC3D2E1F0⟩

def step (w : Nat → Word) (x : Hash) (t : Nat) : Hash :=
  ⟨x.a.rotateLeft 5 + f t x.b x.c x.d + x.e + w t + k t, x.a, x.b.rotateLeft 30, x.c, x.d⟩

def compress (hash : Hash) (m : Nat → Word) : Hash :=
  hash.add ((List.range 80).foldl (step (schedule m)) hash)

/-- The digest, 160 bits. -/
def sha1 (message : List Bool) : List Bool := (chain compress initial message).bits

end Rfc3174
