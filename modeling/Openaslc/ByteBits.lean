import Mathlib

/-! Single bits of a byte: what masking with a shifted one reads, sets and
clears. -/

/-! The index types of bits, bytes and frames are not empty, which a literal of
such a type needs. -/

namespace IndexTypes

instance neZeroTwo : NeZero 2 := ⟨by decide⟩

instance neZeroFour : NeZero 4 := ⟨by decide⟩

instance neZeroEight : NeZero 8 := ⟨by decide⟩

instance neZeroSixteen : NeZero 16 := ⟨by decide⟩

instance neZeroPreset : NeZero (2 ^ 63) := ⟨by decide⟩

end IndexTypes

namespace ByteBits

def mask (b : UInt8) : UInt8 := 1 <<< b

def bit (x : UInt8) (i : Nat) : Bool := x.toNat.testBit i

theorem bit_of_ge (x : UInt8) {i : Nat} (hi : 8 ≤ i) : bit x i = false := by
  have hx := x.toNat_lt
  have hle : 2 ^ 8 ≤ 2 ^ i := Nat.pow_le_pow_right (by omega) hi
  exact Nat.testBit_lt_two_pow (by omega)

theorem bit_ext {x y : UInt8} (h : ∀ i, i < 8 → bit x i = bit y i) : x = y := by
  apply UInt8.toNat_inj.mp
  apply Nat.eq_of_testBit_eq
  intro i
  by_cases hi : i < 8
  · exact h i hi
  · have hx := bit_of_ge x (by omega : 8 ≤ i)
    have hy := bit_of_ge y (by omega : 8 ≤ i)
    exact hx.trans hy.symm

theorem bit_zero (i : Nat) : bit 0 i = false := by simp [bit]

theorem bit_mask {b : UInt8} (hb : b ≤ 7) (i : Nat) : bit (mask b) i = decide (i = b.toNat) := by
  have h : b.toNat ≤ 7 := by simpa [UInt8.le_iff_toNat_le] using hb
  rw [bit, mask, UInt8.toNat_shiftLeft, UInt8.toNat_one, Nat.mod_eq_of_lt (by omega : b.toNat < 8),
    Nat.testBit_mod_two_pow, Nat.one_shiftLeft, Nat.testBit_two_pow]
  by_cases hi : i = b.toNat
  · subst hi
    simp
    omega
  · simp [hi, Ne.symm hi]

theorem bit_or (x y : UInt8) (i : Nat) : bit (x ||| y) i = (bit x i || bit y i) := by
  rw [bit, UInt8.toNat_or, Nat.testBit_or]
  rfl

theorem bit_and (x y : UInt8) (i : Nat) : bit (x &&& y) i = (bit x i && bit y i) := by
  rw [bit, UInt8.toNat_and, Nat.testBit_and]
  rfl

theorem bit_not (x : UInt8) {i : Nat} (hi : i < 8) : bit (~~~x) i = !bit x i := by
  have hx := x.toNat_lt
  have hn : (~~~x).toNat = 2 ^ 8 - (x.toNat + 1) := by
    rw [UInt8.toNat_not]
    simp only [UInt8.size]
    omega
  rw [bit, hn, Nat.testBit_two_pow_sub_succ hx]
  simp [hi, bit]

@[simp] theorem bit_set (x : UInt8) {b : UInt8} (hb : b ≤ 7) (i : Nat) :
    bit (x ||| mask b) i = if i = b.toNat then true else bit x i := by
  rw [bit_or, bit_mask hb]
  by_cases hi : i = b.toNat <;> simp [hi]

@[simp] theorem bit_clear (x : UInt8) {b : UInt8} (hb : b ≤ 7) {i : Nat} (hi : i < 8) :
    bit (x &&& ~~~mask b) i = if i = b.toNat then false else bit x i := by
  rw [bit_and, bit_not _ hi, bit_mask hb]
  by_cases he : i = b.toNat <;> simp [he]

theorem mod_two_pow_succ (n k : Nat) :
    n % 2 ^ (k + 1) = n % 2 ^ k + if n.testBit k then 2 ^ k else 0 := by
  rw [Nat.pow_succ, Nat.mod_mul, Nat.testBit_eq_decide_div_mod_eq]
  rcases Nat.mod_two_eq_zero_or_one (n / 2 ^ k) with h | h <;> simp [h]

theorem toNat_eq_sum (x : UInt8) :
    x.toNat = ∑ i ∈ Finset.range 8, if bit x i then 2 ^ i else 0 := by
  have hsum : ∀ k, x.toNat % 2 ^ k = ∑ i ∈ Finset.range k, if bit x i then 2 ^ i else 0 := by
    intro k
    induction k with
    | zero => simp [Nat.mod_one]
    | succ k ih => rw [mod_two_pow_succ, Finset.sum_range_succ, ← ih, bit]
  rw [← hsum 8, Nat.mod_eq_of_lt x.toNat_lt]

theorem masked_ne_zero (x : UInt8) {b : UInt8} (hb : b ≤ 7) :
    decide (x &&& mask b ≠ 0) = bit x b.toNat := by
  cases hx : bit x b.toNat with
  | true =>
    have h : bit (x &&& mask b) b.toNat = true := by rw [bit_and, bit_mask hb, hx]; simp
    refine decide_eq_true fun he => ?_
    rw [he] at h
    simp [bit] at h
  | false =>
    have h : x &&& mask b = 0 := by
      apply bit_ext
      intro i _
      rw [bit_and, bit_mask hb]
      by_cases he : i = b.toNat
      · rw [he, hx, Bool.false_and, bit_zero]
      · simp [he, bit_zero]
    simp [h]

/-! ### The operators of a byte promoted to 32 bits -/

/-- `x |= 1U << b`. -/
def orShifted (x b : UInt8) : UInt8 := (x.toUInt32 ||| (1 : UInt32) <<< b.toUInt32).toUInt8

/-- `x &= ~(1U << b)`: the complement sets the 24 upper bits, truncation drops them. -/
def andNotShifted (x b : UInt8) : UInt8 :=
  (x.toUInt32 &&& ~~~((1 : UInt32) <<< b.toUInt32)).toUInt8

/-- `x ^= 1U << b`. -/
def xorShifted (x b : UInt8) : UInt8 := (x.toUInt32 ^^^ (1 : UInt32) <<< b.toUInt32).toUInt8

/-- `(x & (1U << b)) != 0`. -/
def andShifted (x b : UInt8) : Bool := decide (x.toUInt32 &&& (1 : UInt32) <<< b.toUInt32 ≠ 0)

theorem toUInt32_mask {b : UInt8} (hb : b ≤ 7) :
    (1 : UInt32) <<< b.toUInt32 = (mask b).toUInt32 := by
  have h : b.toNat ≤ 7 := by simpa [UInt8.le_iff_toNat_le] using hb
  have hpow : 2 ^ b.toNat ≤ 128 := Nat.pow_le_pow_right (by omega : 0 < 2) h
  apply UInt32.toNat_inj.mp
  rw [UInt32.toNat_shiftLeft, UInt8.toNat_toUInt32, UInt8.toNat_toUInt32, mask,
    UInt8.toNat_shiftLeft, UInt32.toNat_one, UInt8.toNat_one, Nat.one_shiftLeft, Nat.one_shiftLeft,
    Nat.mod_eq_of_lt (by omega : b.toNat < 32), Nat.mod_eq_of_lt (by omega : b.toNat < 8),
    Nat.mod_eq_of_lt (Nat.lt_of_le_of_lt hpow (by decide)),
    Nat.mod_eq_of_lt (Nat.lt_of_le_of_lt hpow (by decide))]

theorem orShifted_eq (x : UInt8) {b : UInt8} (hb : b ≤ 7) : orShifted x b = x ||| mask b := by
  rw [orShifted, toUInt32_mask hb, UInt32.toUInt8_or, UInt8.toUInt8_toUInt32,
    UInt8.toUInt8_toUInt32]

theorem andNotShifted_eq (x : UInt8) {b : UInt8} (hb : b ≤ 7) :
    andNotShifted x b = x &&& ~~~mask b := by
  rw [andNotShifted, toUInt32_mask hb, UInt32.toUInt8_and, UInt32.toUInt8_not,
    UInt8.toUInt8_toUInt32, UInt8.toUInt8_toUInt32]

theorem andShifted_eq (x : UInt8) {b : UInt8} (hb : b ≤ 7) :
    andShifted x b = decide (x &&& mask b ≠ 0) := by
  have hzero : (x &&& mask b).toUInt32 = 0 ↔ x &&& mask b = 0 := by
    rw [← UInt32.toNat_inj, ← UInt8.toNat_inj, UInt8.toNat_toUInt32]
    rfl
  rw [andShifted, toUInt32_mask hb, ← UInt8.toUInt32_and]
  simp only [ne_eq, hzero]

end ByteBits
