import Openaslc.BitString

/-! The base 64 encoding of byte strings, six bits a letter, and the decoder that
accepts canonical text only. -/

namespace Rfc4648

open BitString

/-- The letters `A` to `Z` and `a` to `z`, the digits, `+` and `/`. -/
def alphabet : List UInt8 :=
  (List.range 26).map (fun i => UInt8.ofNat (65 + i)) ++
    (List.range 26).map (fun i => UInt8.ofNat (97 + i)) ++
    (List.range 10).map (fun i => UInt8.ofNat (48 + i)) ++ [43, 47]

def pad : UInt8 := 61

def letter (digit : Nat) : UInt8 := alphabet.getD digit 0

/-- Six bits at a time, the last group filled with zeros on its right. -/
def sextets (bits : List Bool) : List Nat :=
  if bits = [] then [] else value ((bits.take 6).rightpad 6 false) :: sextets (bits.drop 6)
termination_by bits.length
decreasing_by
  have hpos := List.length_pos_iff.mpr ‹bits ≠ []›
  rw [List.length_drop]
  omega

def encode (bytes : List UInt8) : List UInt8 :=
  (sextets (ofBytes bytes)).map letter ++ List.replicate ((3 - bytes.length % 3) % 3) pad

/-! ### Decoding -/

/-- The whole bytes at the front. -/
def octets (bits : List Bool) : List UInt8 :=
  if bits.length < 8 then [] else UInt8.ofNat (value (bits.take 8)) :: octets (bits.drop 8)
termination_by bits.length
decreasing_by
  rw [List.length_drop]
  omega

def sextetBits (digit : Nat) : List Bool := ofBitVec (BitVec.ofNat 6 digit)

/-- Letters of the alphabet, then as many padding characters as complete a group
of four, at most two, and only zeros after the last whole byte. -/
def decode (text : List UInt8) : Option (List UInt8) := do
  let body := text.takeWhile (· ≠ pad)
  let digits ← body.mapM fun c => alphabet.idxOf? c
  let bits := digits.flatMap sextetBits
  if body.length % 4 ≠ 1 ∧ text = body ++ List.replicate ((4 - body.length % 4) % 4) pad ∧
      true ∉ bits.drop (8 * (bits.length / 8)) then
    some (octets bits)
  else none

/-! ### Groups of six bits -/

@[simp] theorem sextets_nil : sextets [] = [] := by
  rw [sextets, if_pos rfl]

theorem sextets_of_ne_nil {bits : List Bool} (h : bits ≠ []) : sextets bits =
    value ((bits.take 6).rightpad 6 false) :: sextets (bits.drop 6) := by
  rw [sextets, if_neg h]

theorem length_sextets (bits : List Bool) : (sextets bits).length = (bits.length + 5) / 6 := by
  induction bits using sextets.induct with
  | case1 => simp
  | case2 bits h ih =>
    have hpos := List.length_pos_iff.mpr h
    rw [sextets_of_ne_nil h, List.length_cons, ih, List.length_drop]
    omega

theorem length_group (bits : List Bool) : ((bits.take 6).rightpad 6 false).length = 6 := by
  rw [List.length_rightpad, List.length_take]
  omega

theorem sextets_lt (bits : List Bool) : ∀ d ∈ sextets bits, d < 64 := by
  induction bits using sextets.induct with
  | case1 => simp
  | case2 bits h ih =>
    have hlt := value_lt ((bits.take 6).rightpad 6 false)
    rw [length_group] at hlt
    rw [sextets_of_ne_nil h]
    exact List.forall_mem_cons.mpr ⟨hlt, ih⟩

theorem sextets_append {l : List Bool} {k : Nat} (hl : l.length = 6 * k) (r : List Bool) :
    sextets (l ++ r) = sextets l ++ sextets r := by
  induction k generalizing l with
  | zero =>
    obtain rfl := List.length_eq_zero_iff.mp hl
    rw [List.nil_append, sextets_nil, List.nil_append]
  | succ k ih =>
    have hne : l ≠ [] := List.ne_nil_of_length_eq_add_one hl
    have hne' : l ++ r ≠ [] := List.append_ne_nil_of_left_ne_nil hne r
    have htake : (l ++ r).take 6 = l.take 6 := List.take_append_of_le_length (by omega)
    have hdrop : (l ++ r).drop 6 = l.drop 6 ++ r := List.drop_append_of_le_length (by omega)
    have hrest : (l.drop 6).length = 6 * k := by
      rw [List.length_drop]
      omega
    rw [sextets_of_ne_nil hne', htake, hdrop, ih hrest, sextets_of_ne_nil hne, List.cons_append]

/-- The last `k` digits of `n` in base 64. -/
def digits : Nat → Nat → List Nat
  | 0, _ => []
  | k + 1, n => n / 64 ^ k % 64 :: digits k n

theorem digits_add (k m n : Nat) : digits k (64 ^ k * m + n) = digits k n := by
  induction k generalizing m with
  | zero => rfl
  | succ k ih =>
    have hsplit : 64 ^ (k + 1) * m + n = 64 ^ k * (64 * m) + n := by
      rw [pow_succ, Nat.mul_assoc]
    have hdigit : (64 ^ k * (64 * m) + n) / 64 ^ k = 64 * m + n / 64 ^ k :=
      Nat.mul_add_div (Nat.pow_pos (by decide)) _ _
    rw [hsplit, digits, hdigit, ih, Nat.mul_add_mod, digits]

theorem value_zeros (bits : List Bool) (r : Nat) :
    value (bits ++ List.replicate r false) = value bits * 2 ^ r := by
  have hzeros : value (List.replicate r false) = 0 := by
    induction r with
    | zero => rfl
    | succ r ih => rw [List.replicate_succ, value_cons, ih, Bool.toNat_false, Nat.zero_mul]
  rw [value_append, hzeros, List.length_replicate, Nat.add_zero]

/-- The groups are the digits of the number that the bits are, filled with zeros. -/
theorem sextets_eq {bits : List Bool} {k r : Nat} (hr : r < 6) (hlen : bits.length + r = 6 * k) :
    sextets bits = digits k (value bits * 2 ^ r) := by
  induction k generalizing bits with
  | zero =>
    obtain rfl := List.length_eq_zero_iff.mp (by omega : bits.length = 0)
    rw [sextets_nil, digits]
  | succ k ih =>
    have hne : bits ≠ [] := List.length_pos_iff.mp (by omega)
    rw [sextets_of_ne_nil hne]
    by_cases hfull : 6 ≤ bits.length
    · have htake : (bits.take 6).length = 6 := List.length_take_of_le hfull
      have hdrop : (bits.drop 6).length + r = 6 * k := by
        rw [List.length_drop]
        omega
      have hpow : 2 ^ (bits.drop 6).length * 2 ^ r = 64 ^ k := by
        rw [← pow_add, hdrop, pow_mul]
        rfl
      have hsplit : value bits * 2 ^ r = 64 ^ k * value (bits.take 6) + value (bits.drop 6) * 2 ^ r := by
        conv_lhs => rw [← List.take_append_drop 6 bits, value_append]
        rw [Nat.add_mul, Nat.mul_assoc, hpow, Nat.mul_comm]
      have hrest : value (bits.drop 6) * 2 ^ r < 64 ^ k := by
        rw [← hpow]
        exact Nat.mul_lt_mul_of_pos_right (value_lt _) (Nat.pow_pos (by decide))
      have hfirst : value (bits.take 6) < 64 := by
        simpa [htake] using value_lt (bits.take 6)
      rw [hsplit, digits, digits_add, ih hdrop, List.rightpad, htake, Nat.sub_self,
        List.replicate_zero, List.append_nil, Nat.mul_add_div (Nat.pow_pos (by decide)),
        Nat.div_eq_of_lt hrest, Nat.add_zero, Nat.mod_eq_of_lt hfirst]
    · obtain rfl : k = 0 := by omega
      have htake : bits.take 6 = bits := List.take_of_length_le (by omega)
      have hdrop : bits.drop 6 = [] := List.drop_eq_nil_of_le (by omega)
      have hzeros : 6 - bits.length = r := by omega
      have hlt : value bits * 2 ^ r < 64 := by
        simpa [hlen, value_zeros] using value_lt (bits ++ List.replicate r false)
      rw [htake, hdrop, sextets_nil, List.rightpad, hzeros, value_zeros, digits, digits, pow_zero,
        Nat.div_one, Nat.mod_eq_of_lt hlt]

theorem sextetBits_value {bits : List Bool} (h : bits.length = 6) :
    sextetBits (value bits) = bits := by
  have hlt := value_lt bits
  rw [h] at hlt
  apply eq_of_value_eq
  · rw [sextetBits, length_ofBitVec, h]
  · rw [sextetBits, value_ofBitVec, BitVec.toNat_ofNat, Nat.mod_eq_of_lt hlt]

theorem flatMap_sextets (bits : List Bool) : ∃ r < 6, (sextets bits).flatMap sextetBits =
    bits ++ List.replicate r false := by
  induction bits using sextets.induct with
  | case1 => exact ⟨0, by decide, by simp⟩
  | case2 bits h ih =>
    rw [sextets_of_ne_nil h, List.flatMap_cons, sextetBits_value (length_group bits)]
    by_cases hfull : 6 ≤ bits.length
    · obtain ⟨r, hr, hrest⟩ := ih
      have htake : (bits.take 6).length = 6 := List.length_take_of_le hfull
      refine ⟨r, hr, ?_⟩
      rw [hrest, List.rightpad, htake, Nat.sub_self, List.replicate_zero, List.append_nil,
        ← List.append_assoc, List.take_append_drop]
    · have hpos := List.length_pos_iff.mpr h
      have htake : bits.take 6 = bits := List.take_of_length_le (by omega)
      have hdrop : bits.drop 6 = [] := List.drop_eq_nil_of_le (by omega)
      refine ⟨6 - bits.length, by omega, ?_⟩
      rw [htake, hdrop, sextets_nil, List.flatMap_nil, List.append_nil, List.rightpad]

theorem octets_ofBytes (bytes : List UInt8) {rest : List Bool} (h : rest.length < 8) :
    octets (ofBytes bytes ++ rest) = bytes := by
  induction bytes with
  | nil => exact (octets.eq_1 rest).trans (if_pos h)
  | cons b bytes ih =>
    have hbits : (ofBitVec b.toBitVec).length = 8 := length_ofBitVec b.toBitVec
    have hlong : ¬ (ofBytes (b :: bytes) ++ rest).length < 8 := by
      rw [List.length_append, length_ofBytes, List.length_cons]
      omega
    rw [octets, if_neg hlong, ofBytes_cons, List.append_assoc, List.take_left' hbits,
      List.drop_left' hbits, ih, value_ofBitVec]
    exact congrArg (· :: bytes) UInt8.ofNat_toNat

/-! ### Round trip -/

theorem length_encode (bytes : List UInt8) :
    (encode bytes).length = 4 * ((bytes.length + 2) / 3) := by
  rw [encode, List.length_append, List.length_map, length_sextets, length_ofBytes,
    List.length_replicate]
  omega

theorem letter_mem {d : Nat} (h : d < 64) : letter d ∈ alphabet := by
  have hd : d < alphabet.length := h
  rw [letter, List.getD_eq_getElem _ _ hd]
  exact List.getElem_mem hd

theorem pad_notMem : pad ∉ alphabet := by
  decide

theorem mem_encode {bytes : List UInt8} {c : UInt8} (h : c ∈ encode bytes) :
    c ∈ alphabet ∨ c = pad := by
  rcases List.mem_append.mp h with h | h
  · obtain ⟨d, hd, rfl⟩ := List.mem_map.mp h
    exact Or.inl (letter_mem (sextets_lt _ d hd))
  · exact Or.inr (List.eq_of_mem_replicate h)

theorem mapM_letter {digits : List Nat} (h : ∀ d ∈ digits, d < 64) :
    (digits.map letter).mapM (fun c => alphabet.idxOf? c) = some digits := by
  have hone : ∀ d < 64, alphabet.idxOf? (letter d) = some d := by
    decide
  induction digits with
  | nil => rfl
  | cons d digits ih =>
    have hrest := ih fun d hd => h d (List.mem_cons_of_mem _ hd)
    rw [List.map_cons, List.mapM_cons, hone d (h d List.mem_cons_self), hrest]
    rfl

theorem takeWhile_encode (bytes : List UInt8) : (encode bytes).takeWhile (· ≠ pad) =
    (sextets (ofBytes bytes)).map letter := by
  have hletters : ∀ c ∈ (sextets (ofBytes bytes)).map letter, decide (c ≠ pad) = true := by
    intro c hc
    obtain ⟨d, hd, rfl⟩ := List.mem_map.mp hc
    exact decide_eq_true fun h => pad_notMem (h ▸ letter_mem (sextets_lt _ d hd))
  rw [encode, List.takeWhile_append_of_pos hletters]
  simp

theorem decode_encode (bytes : List UInt8) : decode (encode bytes) = some bytes := by
  have hlen : ((sextets (ofBytes bytes)).map letter).length = (8 * bytes.length + 5) / 6 := by
    rw [List.length_map, length_sextets, length_ofBytes]
  obtain ⟨r, hr, hbits⟩ := flatMap_sextets (ofBytes bytes)
  have htail : true ∉ ((sextets (ofBytes bytes)).flatMap sextetBits).drop
      (8 * (((sextets (ofBytes bytes)).flatMap sextetBits).length / 8)) := by
    rw [hbits, List.length_append, length_ofBytes, List.length_replicate]
    have hdrop : 8 * ((8 * bytes.length + r) / 8) = (ofBytes bytes).length := by
      rw [length_ofBytes]
      omega
    rw [hdrop, List.drop_left]
    intro h
    cases List.eq_of_mem_replicate h
  have hpads : (4 - (8 * bytes.length + 5) / 6 % 4) % 4 = (3 - bytes.length % 3) % 3 := by
    have hthree : bytes.length % 3 = 0 ∨ bytes.length % 3 = 1 ∨ bytes.length % 3 = 2 := by omega
    rcases hthree with h | h | h <;> omega
  simp only [decode, takeWhile_encode, mapM_letter (sextets_lt _), Option.bind_eq_bind,
    Option.bind_some]
  rw [if_pos ⟨by omega, by rw [hlen, hpads, encode], htail⟩, hbits]
  rw [octets_ofBytes bytes (by rw [List.length_replicate]; omega)]

end Rfc4648
