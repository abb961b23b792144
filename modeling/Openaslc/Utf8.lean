import Mathlib

/-! Byte sequences that are UTF-8 text: what holds of every encoded character,
and what is left when such a text is cut at a zero byte. -/

namespace Utf8

def encode (c : Char) : List Nat := (String.utf8EncodeChar c).map UInt8.toNat

def Valid (bytes : List Nat) : Prop := ∃ cs : List Char, bytes = cs.flatMap encode

theorem valid_nil : Valid [] := ⟨[], rfl⟩

theorem encode_ascii {c : Char} (h : c.toNat ≤ 0x7F) : encode c = [c.toNat] := by
  have hval : c.val.toNat ≤ 0x7F := h
  have hmod : c.toNat % 256 = c.toNat := Nat.mod_eq_of_lt (by omega)
  rw [encode, String.utf8EncodeChar, if_pos hval, List.map_cons, List.map_nil, UInt8.toNat_ofNat']
  exact congrArg (fun n => [n]) hmod

theorem encode_high {c : Char} (h : 0x7F < c.toNat) {b : Nat} (hb : b ∈ encode c) :
    0x80 ≤ b ∧ b < 0xFF := by
  have hval : ¬ c.val.toNat ≤ 0x7F := Nat.not_le.mpr h
  rw [encode, String.utf8EncodeChar, if_neg hval] at hb
  split at hb
  · simp only [List.map_cons, List.map_nil, List.mem_cons, List.not_mem_nil, or_false,
      UInt8.toNat_ofNat'] at hb
    omega
  · split at hb
    · simp only [List.map_cons, List.map_nil, List.mem_cons, List.not_mem_nil, or_false,
        UInt8.toNat_ofNat'] at hb
      omega
    · simp only [List.map_cons, List.map_nil, List.mem_cons, List.not_mem_nil, or_false,
        UInt8.toNat_ofNat'] at hb
      omega

theorem valid_of_ascii {cs : List Char} (h : ∀ c ∈ cs, c.toNat ≤ 0x7F) :
    Valid (cs.map Char.toNat) := by
  refine ⟨cs, ?_⟩
  induction cs with
  | nil => rfl
  | cons c cs ih =>
    have hrest := ih fun c' hc' => h c' (List.mem_cons_of_mem _ hc')
    rw [List.flatMap_cons, encode_ascii (h c List.mem_cons_self), ← hrest]
    rfl

theorem Valid.append {bytes rest : List Nat} (h : Valid bytes) (hrest : Valid rest) :
    Valid (bytes ++ rest) := by
  obtain ⟨cs, rfl⟩ := h
  obtain ⟨ds, rfl⟩ := hrest
  exact ⟨cs ++ ds, by simp⟩

theorem Valid.of_cons {b : Nat} {rest : List Nat} (h : Valid (b :: rest)) (hb : b ≤ 0x7F) :
    Valid rest := by
  obtain ⟨cs, hcs⟩ := h
  cases cs with
  | nil => cases hcs
  | cons c cs =>
    rw [List.flatMap_cons] at hcs
    by_cases hascii : c.toNat ≤ 0x7F
    · rw [encode_ascii hascii] at hcs
      exact ⟨cs, (List.cons.inj hcs).2⟩
    · cases hc : encode c with
      | nil => simp [encode, String.utf8EncodeChar_ne_nil] at hc
      | cons first tail =>
        rw [hc] at hcs
        obtain rfl : b = first := (List.cons.inj hcs).1
        have hhigh := encode_high (Nat.not_le.mp hascii) (by simp [hc] : b ∈ encode c)
        omega

theorem valid_ascii_append_iff {cs : List Char} (h : ∀ c ∈ cs, c.toNat ≤ 0x7F) {rest : List Nat} :
    Valid (cs.map Char.toNat ++ rest) ↔ Valid rest := by
  constructor
  · intro hall
    induction cs with
    | nil => exact hall
    | cons c cs ih =>
      have htail := hall.of_cons (h c List.mem_cons_self)
      exact ih (fun d hd => h d (List.mem_cons_of_mem _ hd)) htail
  · exact (valid_of_ascii h).append

theorem not_valid_of_mem {bytes : List Nat} (h : 0xFF ∈ bytes) : ¬ Valid bytes := by
  rintro ⟨cs, rfl⟩
  obtain ⟨c, _, hc⟩ := List.mem_flatMap.mp h
  by_cases hascii : c.toNat ≤ 0x7F
  · rw [encode_ascii hascii, List.mem_singleton] at hc
    omega
  · have hhigh := encode_high (Nat.not_le.mp hascii) hc
    omega

theorem encode_of_zero_mem {c : Char} (h : 0 ∈ encode c) : encode c = [0] := by
  by_cases hascii : c.toNat ≤ 0x7F
  · rw [encode_ascii hascii] at h ⊢
    rw [← List.mem_singleton.mp h]
  · have hhigh := encode_high (Nat.not_le.mp hascii) h
    omega

/-- A zero byte is a character of its own, so what stands before it is text. -/
theorem Valid.before_zero {pre post : List Nat} (h : Valid (pre ++ 0 :: post)) : Valid pre := by
  obtain ⟨cs, hcs⟩ := h
  induction cs generalizing pre with
  | nil => simp at hcs
  | cons c cs ih =>
    rw [List.flatMap_cons] at hcs
    rcases List.append_eq_append_iff.mp hcs with ⟨s, hs, htail⟩ | ⟨s, rfl, htail⟩
    · cases s with
      | nil => exact ⟨[c], by simpa using hs.symm⟩
      | cons b s =>
        obtain ⟨rfl, _⟩ := List.cons_eq_cons.mp htail
        have hzero := @encode_of_zero_mem c (by simp [hs])
        rw [hzero] at hs
        have hlen := congrArg List.length hs
        simp only [List.length_append, List.length_cons, List.length_nil] at hlen
        obtain rfl : pre = [] := List.length_eq_zero_iff.mp (by omega)
        exact valid_nil
    · obtain ⟨cs', hcs'⟩ := ih htail.symm
      exact ⟨c :: cs', by rw [List.flatMap_cons, hcs']⟩

theorem takeWhile_ne_zero_cases (bytes : List Nat) :
    (bytes.takeWhile fun b => b ≠ 0) = bytes ∨
      ∃ post, bytes = (bytes.takeWhile fun b => b ≠ 0) ++ 0 :: post := by
  induction bytes with
  | nil => exact .inl rfl
  | cons b rest ih =>
    by_cases hb : b = 0
    · subst hb
      exact .inr ⟨rest, by simp⟩
    · rw [List.takeWhile_cons_of_pos (by simpa using hb)]
      rcases ih with hall | ⟨post, hpost⟩
      · exact .inl (congrArg (b :: ·) hall)
      · exact .inr ⟨post, congrArg (b :: ·) hpost⟩

theorem Valid.takeWhile_ne_zero {bytes : List Nat} (h : Valid bytes) :
    Valid (bytes.takeWhile fun b => b ≠ 0) := by
  rcases takeWhile_ne_zero_cases bytes with hall | ⟨post, hpost⟩
  · rw [hall]
    exact h
  · rw [hpost] at h
    exact h.before_zero

/-! ### Decided by the standard library's decoder -/

theorem valid_iff_isValidUTF8 (bytes : List Nat) : Valid bytes ↔
    (∀ b ∈ bytes, b < 256) ∧ (bytes.map UInt8.ofNat).toByteArray.IsValidUTF8 := by
  constructor
  · rintro ⟨cs, rfl⟩
    refine ⟨fun b hb => ?_, cs, ?_⟩
    · obtain ⟨c, _, hc⟩ := List.mem_flatMap.mp hb
      obtain ⟨x, _, rfl⟩ := List.mem_map.mp hc
      exact x.toNat_lt
    · have hflat : (cs.flatMap encode).map UInt8.ofNat = cs.flatMap String.utf8EncodeChar := by
        simp [List.map_flatMap, encode, Function.comp_def]
      rw [hflat, List.utf8Encode]
  · rintro ⟨hlt, ⟨cs, hcs⟩⟩
    refine ⟨cs, ?_⟩
    have hlist : bytes.map UInt8.ofNat = cs.flatMap String.utf8EncodeChar :=
      List.toByteArray_inj.mp hcs
    have hback : (bytes.map UInt8.ofNat).map UInt8.toNat = bytes := by
      rw [List.map_map]
      refine (List.map_congr_left fun b hb => ?_).trans (List.map_id bytes)
      exact (UInt8.toNat_ofNat').trans (Nat.mod_eq_of_lt (hlt b hb))
    rw [← hback, hlist, List.map_flatMap]
    rfl

instance (bytes : List Nat) : Decidable (Valid bytes) :=
  decidable_of_iff _ (valid_iff_isValidUTF8 bytes).symm

end Utf8
