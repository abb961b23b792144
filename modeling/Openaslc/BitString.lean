import Openaslc.BigEndian

/-! Bit strings, most significant bit first: their values, and the bits of
words and of byte strings. -/

namespace BitString

def value (bits : List Bool) : Nat := bits.foldl (fun n b => 2 * n + b.toNat) 0

def ofBitVec {w : Nat} (x : BitVec w) : List Bool := List.ofFn fun i : Fin w => x.getMsbD i

def ofBytes (bytes : List UInt8) : List Bool := bytes.flatMap fun byte => ofBitVec byte.toBitVec

theorem foldl_eq (bits : List Bool) (n : Nat) :
    bits.foldl (fun n b => 2 * n + b.toNat) n = n * 2 ^ bits.length + value bits := by
  induction bits generalizing n with
  | nil => simp [value]
  | cons b bits ih =>
    have hrest : value (b :: bits) = b.toNat * 2 ^ bits.length + value bits := by
      simpa [value] using ih (2 * 0 + b.toNat)
    rw [List.foldl_cons, ih, hrest, List.length_cons, pow_succ]
    ring

theorem value_cons (b : Bool) (bits : List Bool) :
    value (b :: bits) = b.toNat * 2 ^ bits.length + value bits := by
  simpa [value] using foldl_eq bits (2 * 0 + b.toNat)

theorem value_append (l r : List Bool) : value (l ++ r) = value l * 2 ^ r.length + value r := by
  rw [value, List.foldl_append, foldl_eq]
  rfl

theorem value_lt (bits : List Bool) : value bits < 2 ^ bits.length := by
  induction bits with
  | nil => simp [value]
  | cons b bits ih =>
    have hb := b.toNat_le
    have hmul : b.toNat * 2 ^ bits.length ≤ 1 * 2 ^ bits.length := Nat.mul_le_mul_right _ hb
    rw [value_cons, List.length_cons, pow_succ]
    omega

/-- The value and the length determine the bits. -/
theorem eq_of_value_eq {l r : List Bool} (hlen : l.length = r.length) (h : value l = value r) :
    l = r := by
  induction l generalizing r with
  | nil => exact (List.length_eq_zero_iff.mp hlen.symm).symm
  | cons b l ih =>
    cases r with
    | nil => cases hlen
    | cons c r =>
      have hlen' : l.length = r.length := Nat.succ.inj hlen
      have hl := value_lt l
      have hr := value_lt r
      rw [value_cons, value_cons, ← hlen'] at h
      rw [← hlen'] at hr
      have hbc : b = c := by
        cases b <;> cases c <;> simp at h <;> first | rfl | omega
      subst hbc
      rw [ih hlen' (Nat.add_left_cancel h)]

@[simp] theorem length_ofBitVec {w : Nat} (x : BitVec w) : (ofBitVec x).length = w :=
  List.length_ofFn

@[simp] theorem length_ofBytes (bytes : List UInt8) : (ofBytes bytes).length = 8 * bytes.length := by
  induction bytes with
  | nil => rfl
  | cons b bytes ih =>
    rw [ofBytes, List.flatMap_cons, List.length_append, length_ofBitVec, List.length_cons]
    rw [ofBytes] at ih
    omega

theorem ofBitVec_cons {w : Nat} (b : Bool) (x : BitVec w) :
    ofBitVec (BitVec.cons b x) = b :: ofBitVec x := by
  simp [ofBitVec, List.ofFn_succ]

@[simp] theorem value_ofBitVec {w : Nat} (x : BitVec w) : value (ofBitVec x) = x.toNat := by
  induction w with
  | zero => rw [BitVec.eq_nil x]; rfl
  | succ w ih =>
    rw [← BitVec.cons_msb_setWidth x, ofBitVec_cons, value_cons, ih, BitVec.toNat_cons',
      length_ofBitVec, Nat.shiftLeft_eq]

theorem ofBytes_cons (b : UInt8) (bytes : List UInt8) :
    ofBytes (b :: bytes) = ofBitVec b.toBitVec ++ ofBytes bytes := List.flatMap_cons

theorem value_ofBytes (bytes : List UInt8) : value (ofBytes bytes) = BigEndian.value bytes := by
  induction bytes with
  | nil => rfl
  | cons b bytes ih =>
    rw [ofBytes_cons, value_append, value_ofBitVec, ih, BigEndian.value_cons, length_ofBytes, pow_mul]
    rfl

theorem ofBytes_append (l r : List UInt8) : ofBytes (l ++ r) = ofBytes l ++ ofBytes r :=
  List.flatMap_append

theorem ofBytes_drop (bytes : List UInt8) (n : Nat) :
    (ofBytes bytes).drop (8 * n) = ofBytes (bytes.drop n) := by
  induction bytes generalizing n with
  | nil => simp [ofBytes]
  | cons b bytes ih =>
    cases n with
    | zero => simp
    | succ n =>
      have hlen := length_ofBitVec b.toBitVec
      rw [ofBytes_cons, Nat.mul_succ, Nat.add_comm, ← List.drop_drop, List.drop_left' hlen, ih,
        List.drop_succ_cons]

theorem ofBytes_take (bytes : List UInt8) (n : Nat) :
    (ofBytes bytes).take (8 * n) = ofBytes (bytes.take n) := by
  induction bytes generalizing n with
  | nil => simp [ofBytes]
  | cons b bytes ih =>
    cases n with
    | zero => simp [ofBytes]
    | succ n =>
      have hlen := length_ofBitVec b.toBitVec
      rw [ofBytes_cons, Nat.mul_succ, Nat.add_comm, List.take_add, List.take_left' hlen,
        List.drop_left' hlen, ih, List.take_succ_cons, ofBytes_cons]

theorem ofBytes_replicate (n : Nat) : ofBytes (List.replicate n 0) = List.replicate (8 * n) false := by
  induction n with
  | zero => rfl
  | succ n ih =>
    rw [List.replicate_succ, ofBytes_cons, ih, Nat.mul_succ, Nat.add_comm, List.replicate_add]
    rfl

theorem ofBytes_encode (width n : Nat) :
    ofBytes (BigEndian.encode width n) = ofBitVec (BitVec.ofNat (8 * width) n) := by
  apply eq_of_value_eq
  · rw [length_ofBytes, BigEndian.length_encode, length_ofBitVec]
  · rw [value_ofBytes, BigEndian.value_encode, value_ofBitVec, BitVec.toNat_ofNat, pow_mul]
    rfl

/-! ### Hexadecimal numbers -/

/-- The last `k` digits of `n`, in lower case. -/
def hex : Nat → Nat → List Char
  | 0, _ => []
  | k + 1, n => hex k (n / 16) ++ [Nat.digitChar (n % 16)]

@[simp] theorem length_hex (k n : Nat) : (hex k n).length = k := by
  induction k generalizing n with
  | zero => rfl
  | succ k ih => rw [hex, List.length_append, ih, List.length_singleton]

theorem hex_add (j : Nat) {k n : Nat} (m : Nat) (hn : n < 16 ^ k) :
    hex (j + k) (m * 16 ^ k + n) = hex j m ++ hex k n := by
  induction k generalizing n with
  | zero =>
    obtain rfl : n = 0 := by simpa using hn
    simp [hex]
  | succ k ih =>
    have hsplit : m * 16 ^ (k + 1) + n = (m * 16 ^ k + n / 16) * 16 + n % 16 := by
      rw [pow_succ]
      have hdiv := Nat.div_add_mod n 16
      linarith
    have hdigit : n % 16 < 16 := Nat.mod_lt n (by decide)
    have hquotient : (m * 16 ^ (k + 1) + n) / 16 = m * 16 ^ k + n / 16 := by omega
    have hremainder : (m * 16 ^ (k + 1) + n) % 16 = n % 16 := by omega
    have hlt : n / 16 < 16 ^ k := by
      rw [pow_succ] at hn
      omega
    rw [← Nat.add_assoc, hex, hquotient, hremainder, ih hlt, hex, List.append_assoc]

theorem hex_zero (k : Nat) : hex k 0 = List.replicate k '0' := by
  induction k with
  | zero => rfl
  | succ k ih =>
    rw [hex, Nat.zero_div, ih, List.replicate_succ']
    rfl

/-- Digits padded on the left are digits of fixed number. -/
theorem leftpad_toDigits {k n : Nat} (h : n < 16 ^ (k + 1)) :
    (Nat.toDigits 16 n).leftpad (k + 1) '0' = hex (k + 1) n := by
  induction k generalizing n with
  | zero =>
    have hn : n < 16 := by simpa using h
    rw [Nat.toDigits_of_lt_base hn, hex, Nat.mod_eq_of_lt hn]
    rfl
  | succ k ih =>
    by_cases hn : n < 16
    · rw [Nat.toDigits_of_lt_base hn, hex, Nat.mod_eq_of_lt hn, Nat.div_eq_of_lt hn, hex_zero]
      rfl
    · have hlt : n / 16 < 16 ^ (k + 1) := by
        rw [pow_succ] at h
        omega
      rw [Nat.toDigits_of_base_le (by decide) (Nat.not_lt.mp hn), hex, ← ih hlt]
      simp [List.leftpad]

end BitString
