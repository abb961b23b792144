import Openaslc.ByteBits

/-! Numbers in network byte order. -/

namespace BigEndian

def value (bytes : List UInt8) : Nat := bytes.foldl (fun n b => n * 256 + b.toNat) 0

/-- The low `8 * width` bits of `n`. -/
def encode : Nat → Nat → List UInt8
  | 0, _ => []
  | width + 1, n => UInt8.ofNat (n / 256 ^ width) :: encode width n

theorem foldl_eq (bytes : List UInt8) (n : Nat) :
    bytes.foldl (fun n b => n * 256 + b.toNat) n = n * 256 ^ bytes.length + value bytes := by
  induction bytes generalizing n with
  | nil => simp [value]
  | cons b bytes ih =>
    have hrest : value (b :: bytes) = b.toNat * 256 ^ bytes.length + value bytes := by
      simpa [value] using ih (0 * 256 + b.toNat)
    rw [List.foldl_cons, ih, hrest, List.length_cons, pow_succ]
    ring

theorem value_cons (b : UInt8) (bytes : List UInt8) :
    value (b :: bytes) = b.toNat * 256 ^ bytes.length + value bytes := by
  simpa [value] using foldl_eq bytes (0 * 256 + b.toNat)

theorem value_lt (bytes : List UInt8) : value bytes < 256 ^ bytes.length := by
  induction bytes with
  | nil => simp [value]
  | cons b bytes ih =>
    have hb : b.toNat + 1 ≤ 256 := b.toNat_lt
    have hmul : (b.toNat + 1) * 256 ^ bytes.length ≤ 256 * 256 ^ bytes.length :=
      Nat.mul_le_mul_right _ hb
    rw [value_cons, List.length_cons, pow_succ]
    linarith

theorem length_encode (width n : Nat) : (encode width n).length = width := by
  induction width with
  | zero => rfl
  | succ width ih => rw [encode, List.length_cons, ih]

theorem value_encode (width n : Nat) : value (encode width n) = n % 256 ^ width := by
  induction width with
  | zero => simp [encode, value, Nat.mod_one]
  | succ width ih =>
    have hbyte : (UInt8.ofNat (n / 256 ^ width)).toNat = n / 256 ^ width % 256 := by simp
    rw [encode, value_cons, hbyte, length_encode, ih, pow_succ, Nat.mod_mul]
    ring

theorem top_bit_iff (b : UInt8) (bytes : List UInt8) :
    128 * 256 ^ bytes.length ≤ value (b :: bytes) ↔ 128 ≤ b.toNat := by
  have hlt := value_lt bytes
  rw [value_cons]
  constructor
  · intro h
    by_contra hb
    have hmul : (b.toNat + 1) * 256 ^ bytes.length ≤ 128 * 256 ^ bytes.length :=
      Nat.mul_le_mul_right _ (by omega)
    linarith
  · intro hb
    have hmul : 128 * 256 ^ bytes.length ≤ b.toNat * 256 ^ bytes.length :=
      Nat.mul_le_mul_right _ hb
    omega

theorem shift_or (n : UInt64) (b : UInt8) (h : n.toNat < 2 ^ 56) :
    ((n <<< 8) ||| b.toUInt64).toNat = n.toNat * 256 + b.toNat := by
  have hb := b.toNat_lt
  have hmod : n.toNat * 2 ^ 8 % 2 ^ 64 = n.toNat * 2 ^ 8 := Nat.mod_eq_of_lt (by omega)
  rw [UInt64.toNat_or, UInt64.toNat_shiftLeft, UInt8.toNat_toUInt64]
  show n.toNat <<< 8 % 2 ^ 64 ||| b.toNat = _
  rw [Nat.shiftLeft_eq, hmod, mul_comm, ← Nat.two_pow_add_eq_or_of_lt hb, mul_comm]

/-- Shifting the bytes into a 64-bit word reads them, up to eight of them. -/
theorem foldl_shift_or (bytes : List UInt8) (h : bytes.length ≤ 8) :
    (bytes.foldl (fun (n : UInt64) b => (n <<< 8) ||| b.toUInt64) 0).toNat = value bytes := by
  induction bytes using List.reverseRecOn with
  | nil => rfl
  | append_singleton bytes b ih =>
    rw [List.length_append, List.length_singleton] at h
    have hvalue := ih (by omega)
    have hlt := value_lt bytes
    have hpow : 256 ^ bytes.length ≤ 256 ^ 7 := Nat.pow_le_pow_right (by omega) (by omega)
    rw [List.foldl_append, List.foldl_cons, List.foldl_nil, shift_or _ _ (by omega), hvalue]
    simp [value]

theorem toUInt8_shift (len : UInt64) (i : UInt64) (hi : i.toNat < 8) :
    ((len >>> (i * 8)) &&& 0xFF).toUInt8 = UInt8.ofNat (len.toNat / 256 ^ i.toNat) := by
  have h8 : (i * 8).toNat = 8 * i.toNat := by
    rw [UInt64.toNat_mul]
    show i.toNat * 8 % 2 ^ 64 = _
    omega
  apply UInt8.toNat_inj.mp
  rw [UInt64.toNat_toUInt8, UInt64.toNat_and, UInt64.toNat_shiftRight, h8, UInt8.toNat_ofNat',
    Nat.mod_eq_of_lt (by omega : 8 * i.toNat < 64), Nat.shiftRight_eq_div_pow, pow_mul]
  show (len.toNat / 256 ^ i.toNat &&& 255) % 2 ^ 8 = _
  rw [Nat.and_two_pow_sub_one_eq_mod _ 8, Nat.mod_mod]

theorem encode_mod (width n : Nat) : encode width (n % 256 ^ width) = encode width n := by
  induction width generalizing n with
  | zero => rfl
  | succ width ih =>
    have hbyte : UInt8.ofNat (n % 256 ^ (width + 1) / 256 ^ width) = UInt8.ofNat (n / 256 ^ width) := by
      rw [pow_succ, Nat.mod_mul_right_div_self, ← UInt8.toNat_inj, UInt8.toNat_ofNat',
        UInt8.toNat_ofNat', Nat.mod_mod]
    have hrest : n % 256 ^ (width + 1) % 256 ^ width = n % 256 ^ width := by
      rw [pow_succ, Nat.mod_mul_right_mod]
    rw [encode, hbyte, ← ih (n % 256 ^ (width + 1)), hrest, ih, encode]

/-- The eight bytes that shifting takes out of a 64-bit word. -/
theorem map_shift (x : UInt64) : ((List.range 8).map fun i =>
    ((x >>> (UInt64.ofNat (7 - i) * 8)) &&& 0xFF).toUInt8) = encode 8 x.toNat := by
  have hbyte : ∀ i < 8, ((x >>> (UInt64.ofNat (7 - i) * 8)) &&& 0xFF).toUInt8 =
      UInt8.ofNat (x.toNat / 256 ^ (7 - i)) := fun i hi => by
    have hsmall : (UInt64.ofNat (7 - i)).toNat = 7 - i := by
      rw [UInt64.toNat_ofNat', Nat.mod_eq_of_lt (by omega)]
    rw [toUInt8_shift _ _ (by omega), hsmall]
  rw [List.map_congr_left fun i hi => hbyte i (List.mem_range.mp hi)]
  rfl

end BigEndian
