import Openaslc.MemoryBits
import Openaslc.MemoryBounds

/-! The image as one store of bits: what every sequence of accessor calls
leaves in it, and what the readers of each granularity return. -/

namespace Openaslc

def BitStore : Type := MemoryArea → Nat → Nat → Bool

namespace BitStore

def byteValue (σ : BitStore) (area : MemoryArea) (i : Nat) : Nat :=
  ∑ b ∈ Finset.range 8, if σ area i b then 2 ^ b else 0

def bytes (σ : BitStore) (area : MemoryArea) (start count : Nat) : List UInt8 :=
  (List.range count).map fun i => UInt8.ofNat (σ.byteValue area (start + i))

def writeBytes (σ : BitStore) (area : MemoryArea) (start : Nat) (data : List UInt8) : BitStore :=
  fun area' i b =>
    if area' = area ∧ start ≤ i ∧ i < start + data.length then
      ByteBits.bit (data.getD (i - start) 0) b
    else σ area' i b

def writeBit (σ : BitStore) (area : MemoryArea) (byte bit : Nat) (value : Bool) : BitStore :=
  fun area' i b => if area' = area ∧ i = byte ∧ b = bit then value else σ area' i b

theorem writeBytes_nil (σ : BitStore) (area : MemoryArea) (start : Nat) :
    σ.writeBytes area start [] = σ := by
  funext area' i b
  have hn : ¬ (area' = area ∧ start ≤ i ∧ i < start + 0) := by omega
  exact if_neg hn

theorem writeBytes_cons (σ : BitStore) (area : MemoryArea) (start : Nat) (byte : UInt8)
    (rest : List UInt8) :
    (σ.writeBytes area start [byte]).writeBytes area (start + 1) rest =
      σ.writeBytes area start (byte :: rest) := by
  funext area' i b
  simp only [writeBytes, List.length_cons, List.length_nil]
  by_cases harea : area' = area
  · by_cases hi : i = start
    · subst hi
      simp [harea]
    · by_cases hin : start + 1 ≤ i ∧ i < start + 1 + rest.length
      · have hsub : i - start = i - (start + 1) + 1 := by omega
        rw [if_pos ⟨harea, hin⟩, if_pos ⟨harea, by omega⟩, hsub, List.getD_cons_succ]
      · rw [if_neg (by tauto), if_neg (by omega), if_neg (by omega)]
  · simp [harea]

end BitStore

namespace MemoryMap

def bits (mem : MemoryMap) : BitStore := fun area i b =>
  if h : i < getSize area then ByteBits.bit (mem.getAreaPtr area ⟨i, h⟩) b else false

theorem bits_of_lt (mem : MemoryMap) {area : MemoryArea} {i : Nat} (h : i < getSize area) (b : Nat) :
    mem.bits area i b = ByteBits.bit (mem.getAreaPtr area ⟨i, h⟩) b :=
  dif_pos h

theorem bits_setByte (mem : MemoryMap) (area : MemoryArea) (i : Fin (getSize area)) (value : UInt8) :
    (mem.setByte area i value).bits = mem.bits.writeBytes area i [value] := by
  funext area' j b
  by_cases hj : j < getSize area'
  · rw [bits_of_lt _ hj, BitStore.writeBytes, bits_of_lt _ hj]
    by_cases harea : area' = area
    · subst harea
      rw [getAreaPtr_setByte_self]
      by_cases hi : j = i
      · subst hi
        simp
      · rw [if_neg fun he => hi (congrArg Fin.val he)]
        have hn : ¬ (area' = area' ∧ i.val ≤ j ∧ j < i.val + [value].length) := by
          simp only [List.length_singleton]
          omega
        rw [if_neg hn]
    · rw [getAreaPtr_setByte_ne mem harea, if_neg fun h => harea h.1]
  · have hn : ¬ (area' = area ∧ i.val ≤ j ∧ j < i.val + [value].length) := by
      rintro ⟨rfl, h⟩
      simp only [List.length_singleton] at h
      omega
    rw [BitStore.writeBytes, if_neg hn, bits, bits, dif_neg hj, dif_neg hj]

theorem bits_setBitAt (mem : MemoryMap) (a : SignalAddr) (value : Bool) :
    (mem.setBitAt a value).bits = mem.bits.writeBit a.area a.byte a.bit value := by
  funext area i b
  rw [BitStore.writeBit]
  by_cases hi : i < getSize area
  · by_cases hb : b < 8
    · have hset := bitAt_setBitAt mem a ⟨area, ⟨i, hi⟩, ⟨b, hb⟩⟩ value
      have haddr : (⟨area, ⟨i, hi⟩, ⟨b, hb⟩⟩ : SignalAddr) = a ↔
          area = a.area ∧ i = a.byte.val ∧ b = a.bit.val := by
        rw [SignalAddr.ext_iff', Fin.ext_iff]
      rw [bits_of_lt _ hi, bits_of_lt _ hi]
      simp only [haddr] at hset
      exact hset
    · have hbit := a.bit.isLt
      have hn : ¬ (area = a.area ∧ i = a.byte.val ∧ b = a.bit.val) := by omega
      rw [if_neg hn, bits_of_lt _ hi, bits_of_lt _ hi, ByteBits.bit_of_ge _ (by omega),
        ByteBits.bit_of_ge _ (by omega)]
  · have hn : ¬ (area = a.area ∧ i = a.byte.val ∧ b = a.bit.val) := by
      rintro ⟨rfl, rfl, _⟩
      exact hi a.byte.isLt
    rw [if_neg hn, bits, bits, dif_neg hi, dif_neg hi]

theorem toNat_byte (mem : MemoryMap) {area : MemoryArea} {i : Nat} (h : i < getSize area) :
    mem.getAreaPtr area ⟨i, h⟩ = UInt8.ofNat (mem.bits.byteValue area i) := by
  have hsum := ByteBits.toNat_eq_sum (mem.getAreaPtr area ⟨i, h⟩)
  have hvalue : mem.bits.byteValue area i = (mem.getAreaPtr area ⟨i, h⟩).toNat := by
    rw [hsum, BitStore.byteValue]
    exact Finset.sum_congr rfl fun b _ => by rw [bits_of_lt mem h]
  rw [hvalue, UInt8.ofNat_toNat]

theorem ofFn_bytes (mem : MemoryMap) {area : MemoryArea} {start count : Nat}
    (h : start + count ≤ getSize area) :
    (List.ofFn fun i : Fin count => mem.getAreaPtr area ⟨start + i, add_lt_getSize h i⟩) =
      mem.bits.bytes area start count := by
  apply List.ext_getElem
  · simp [BitStore.bytes]
  · intro i hi _
    rw [List.length_ofFn] at hi
    have hbyte := mem.toNat_byte (by omega : start + i < getSize area)
    simpa [BitStore.bytes] using hbyte

end MemoryMap

/-! ### The accessors on bits -/

theorem store_of_lt {area : MemoryArea} {i : Nat} (h : i < getSize area) (value : UInt8)
    (mem : MemoryMap) : ∃ mem', MemM.store area i value mem = ⟨.ok (), mem', [(area, i)]⟩ ∧
      mem'.bits = mem.bits.writeBytes area i [value] :=
  ⟨mem.setByte area ⟨i, h⟩ value, dif_pos h, mem.bits_setByte area ⟨i, h⟩ value⟩

theorem storeRange_of_le {area : MemoryArea} {start : Nat} {data : List UInt8}
    (h : start + data.length ≤ getSize area) (mem : MemoryMap) :
    ∃ mem' touched, MemM.storeRange area start data mem = ⟨.ok (), mem', touched⟩ ∧
      mem'.bits = mem.bits.writeBytes area start data := by
  induction data generalizing start mem with
  | nil => exact ⟨mem, [], rfl, (BitStore.writeBytes_nil _ area start).symm⟩
  | cons byte rest ih =>
    rw [List.length_cons] at h
    obtain ⟨mem₁, hstore, hbits⟩ := store_of_lt (by omega : start < getSize area) byte mem
    obtain ⟨mem₂, touched, hrest, hbits'⟩ := ih (by omega : start + 1 + rest.length ≤ _) mem₁
    refine ⟨mem₂, (area, start) :: touched, ?_, ?_⟩
    · rw [MemM.storeRange, MemM.bind_ok hstore, hrest]
      rfl
    · rw [hbits', hbits, BitStore.writeBytes_cons]

/-! ### The operators as the source has them, promoted to 32 bits -/

theorem readBit_promoted (area : MemoryArea) (byteOffset : UInt64) (bitIndex : UInt8) :
    readBit area byteOffset bitIndex =
      (if bitIndex > 7 then MemM.raise (.invalidArgument "Bit index must be 0..7")
      else do
        let byteVal ← readByte area byteOffset
        pure (ByteBits.andShifted byteVal bitIndex)) := by
  by_cases hb : bitIndex > 7
  · rw [readBit, if_pos hb, if_pos hb]
  · simp only [readBit, if_neg hb, ByteBits.andShifted_eq _ (UInt8.not_lt.mp hb)]

theorem writeBit_promoted (area : MemoryArea) (byteOffset : UInt64) (bitIndex : UInt8)
    (value : Bool) : writeBit area byteOffset bitIndex value =
      (if bitIndex > 7 then MemM.raise (.invalidArgument "Bit index must be 0..7")
      else do
        validateBounds area byteOffset 1
        let byte ← MemM.load area byteOffset.toNat
        if value then MemM.store area byteOffset.toNat (ByteBits.orShifted byte bitIndex)
        else MemM.store area byteOffset.toNat (ByteBits.andNotShifted byte bitIndex)) := by
  by_cases hb : bitIndex > 7
  · rw [writeBit, if_pos hb, if_pos hb]
  · have hle : bitIndex ≤ 7 := UInt8.not_lt.mp hb
    simp only [writeBit, if_neg hb, ByteBits.orShifted_eq _ hle, ByteBits.andNotShifted_eq _ hle]

/-! ### One call whose range lies inside the area -/

theorem passes_of_le {area : MemoryArea} {offset count : UInt64}
    (h : offset.toNat + count.toNat ≤ getSize area) (mem : MemoryMap) :
    validateBounds area offset count mem = ⟨.ok (), mem, []⟩ := by
  have hsize := getSize_le area
  exact validateBounds_passes (by omega) mem

theorem readByte_of_lt {area : MemoryArea} {offset : UInt64} (h : offset.toNat < getSize area)
    (mem : MemoryMap) : readByte area offset mem =
      ⟨.ok (UInt8.ofNat (mem.bits.byteValue area offset.toNat)), mem, [(area, offset.toNat)]⟩ := by
  have hpass := passes_of_le (by simpa using h : offset.toNat + (1 : UInt64).toNat ≤ _) mem
  rw [readByte, MemM.bind_ok hpass, load_of_lt h, mem.toNat_byte h]
  rfl

theorem readBit_of_lt {area : MemoryArea} {offset : UInt64} {bitIndex : UInt8}
    (h : offset.toNat < getSize area) (hb : bitIndex ≤ 7) (mem : MemoryMap) :
    readBit area offset bitIndex mem =
      ⟨.ok (mem.bits area offset.toNat bitIndex.toNat), mem, [(area, offset.toNat)]⟩ := by
  rw [readBit, if_neg (UInt8.not_lt.mpr hb), MemM.bind_ok (readByte_of_lt h mem), ← mem.toNat_byte h,
    ByteBits.masked_ne_zero _ hb, mem.bits_of_lt h]
  rfl

theorem readBytes_of_le {area : MemoryArea} {offset count : UInt64}
    (h : offset.toNat + count.toNat ≤ getSize area) (mem : MemoryMap) :
    ∃ touched, readBytes area offset count mem =
      ⟨.ok (mem.bits.bytes area offset.toNat count.toNat), mem, touched⟩ := by
  have hsize := getSize_le area
  have hmax : ¬ vectorMaxSize < count.toNat := by
    rw [vectorMaxSize]
    omega
  rw [readBytes, MemM.bind_ok (passes_of_le h mem), if_neg hmax, loadRange_of_le area h,
    mem.ofFn_bytes h]
  exact ⟨_, rfl⟩

theorem exec_getAreaSnapshot_bits (area : MemoryArea) (mem : MemoryMap) :
    (getAreaSnapshot area).exec mem = .ok (mem.bits.bytes area 0 (getSize area), mem) := by
  have h : 0 + getSize area ≤ getSize area := Nat.le_of_eq (Nat.zero_add _)
  rw [getAreaSnapshot, exec_loadRange area h, mem.ofFn_bytes h]

theorem writeByte_of_lt {area : MemoryArea} {offset : UInt64} (h : offset.toNat < getSize area)
    (value : UInt8) (mem : MemoryMap) :
    ∃ mem' touched, writeByte area offset value mem = ⟨.ok (), mem', touched⟩ ∧
      mem'.bits = mem.bits.writeBytes area offset.toNat [value] := by
  have hpass := passes_of_le (by simpa using h : offset.toNat + (1 : UInt64).toNat ≤ _) mem
  obtain ⟨mem', hstore, hbits⟩ := store_of_lt h value mem
  refine ⟨mem', [(area, offset.toNat)], ?_, hbits⟩
  rw [writeByte, MemM.bind_ok hpass, hstore]
  rfl

theorem writeBit_of_lt {area : MemoryArea} {offset : UInt64} {bitIndex : UInt8}
    (h : offset.toNat < getSize area) (hb : bitIndex ≤ 7) (value : Bool) (mem : MemoryMap) :
    ∃ mem' touched, writeBit area offset bitIndex value mem = ⟨.ok (), mem', touched⟩ ∧
      mem'.bits = mem.bits.writeBit area offset.toNat bitIndex.toNat value := by
  have hb' : bitIndex.toNat < 8 := Nat.lt_succ_of_le (UInt8.le_iff_toNat_le.mp hb)
  let a : SignalAddr := ⟨area, ⟨offset.toNat, h⟩, ⟨bitIndex.toNat, hb'⟩⟩
  have hoffset : a.byteOffset = offset := UInt64.ofNat_toNat
  have hindex : a.bitIndex = bitIndex := UInt8.ofNat_toNat
  have hwrite := writeBit_addr a value mem
  rw [hoffset, hindex, MemM.exec_eq_ok] at hwrite
  obtain ⟨touched, hwrite⟩ := hwrite
  exact ⟨mem.setBitAt a value, touched, hwrite, mem.bits_setBitAt a value⟩

theorem storeChecked_of_le {area : MemoryArea} {offset : UInt64} {data : ByteVector}
    (h : offset.toNat + data.data.length ≤ getSize area) (mem : MemoryMap) :
    ∃ mem' touched, writeBytes area offset data mem = ⟨.ok (), mem', touched⟩ ∧
      mem'.bits = mem.bits.writeBytes area offset.toNat data.data := by
  have hsize : offset.toNat + data.size.toNat ≤ getSize area := by rwa [ByteVector.toNat_size]
  obtain ⟨mem', touched, hstore, hbits⟩ := storeRange_of_le h mem
  refine ⟨mem', [] ++ touched, ?_, hbits⟩
  rw [writeBytes, MemM.bind_ok (passes_of_le hsize mem), hstore]

namespace Accessor

/-- Offset and count, added exactly, are a `size_t`. -/
def NoWrap (acc : Accessor) : Prop := acc.offset.toNat + acc.count.toNat ≤ 2 ^ 64 - 1

def refusal (area : MemoryArea) (acc : Accessor) : Option Exception :=
  if 7 < acc.bitIndex then some (.invalidArgument "Bit index must be 0..7")
  else if getSize area < acc.offset.toNat + acc.count.toNat then
    some (.outOfRange "MemoryMap access out of bounds")
  else none

def effect (area : MemoryArea) : Accessor → BitStore → BitStore
  | writeByte offset value, σ => σ.writeBytes area offset.toNat [value]
  | writeBit offset bitIndex value, σ => σ.writeBit area offset.toNat bitIndex.toNat value
  | writeBytes offset data, σ => σ.writeBytes area offset.toNat data.data
  | copySnapshotTo snapshot, σ => σ.writeBytes area 0 snapshot.data
  | readByte _, σ | readBit _ _, σ | readBytes _ _, σ => σ

theorem run_refused {area : MemoryArea} {acc : Accessor} (hw : acc.NoWrap) {e : Exception}
    (h : acc.refusal area = some e) (mem : MemoryMap) :
    acc.run area mem = ⟨.error (.threw e), mem, []⟩ := by
  rw [refusal] at h
  split at h
  · next hbit =>
    obtain rfl := Option.some.inj h
    exact run_bitIndex hbit mem
  · next hbit =>
    split at h
    · next hsize =>
      obtain rfl := Option.some.inj h
      obtain ⟨body, hrun, _⟩ := acc.run_eq area (UInt8.not_lt.mp hbit)
      rw [NoWrap] at hw
      have hmod : (acc.offset.toNat + acc.count.toNat) % 2 ^ 64 =
          acc.offset.toNat + acc.count.toNat := Nat.mod_eq_of_lt (by omega)
      rw [hrun, MemM.bind_error (validateBounds_throws (hmod.symm ▸ hsize) mem)]
    · cases h

theorem accepted {area : MemoryArea} {acc : Accessor} (h : acc.refusal area = none) :
    acc.bitIndex ≤ 7 ∧ acc.offset.toNat + acc.count.toNat ≤ getSize area := by
  rw [refusal] at h
  split at h
  · cases h
  · next hbit =>
    split at h
    · cases h
    · next hsize => exact ⟨UInt8.not_lt.mp hbit, Nat.not_lt.mp hsize⟩

theorem run_accepted {area : MemoryArea} {acc : Accessor} (h : acc.refusal area = none)
    (mem : MemoryMap) : ∃ mem' touched, acc.run area mem = ⟨.ok (), mem', touched⟩ ∧
      mem'.bits = acc.effect area mem.bits := by
  obtain ⟨hbit, hle⟩ := accepted h
  cases acc with
  | readByte offset =>
    have hread := readByte_of_lt (hle : offset.toNat < getSize area) mem
    exact ⟨mem, [(area, offset.toNat)], MemM.bind_ok hread _, rfl⟩
  | writeByte offset value => exact writeByte_of_lt (hle : offset.toNat < getSize area) value mem
  | readBit offset bitIndex =>
    have hread := readBit_of_lt (hle : offset.toNat < getSize area) hbit mem
    exact ⟨mem, [(area, offset.toNat)], MemM.bind_ok hread _, rfl⟩
  | writeBit offset bitIndex value =>
    exact writeBit_of_lt (hle : offset.toNat < getSize area) hbit value mem
  | readBytes offset count =>
    obtain ⟨touched, hread⟩ := readBytes_of_le hle mem
    exact ⟨mem, touched ++ [], MemM.bind_ok hread _, rfl⟩
  | writeBytes offset data =>
    rw [count, ByteVector.toNat_size] at hle
    exact storeChecked_of_le hle mem
  | copySnapshotTo snapshot =>
    rw [count, ByteVector.toNat_size] at hle
    exact @storeChecked_of_le area 0 snapshot hle mem

end Accessor

/-! ### Runs of calls -/

/-- Calls made one after the other; one that throws is caught by its caller. -/
def runCalls (mem : MemoryMap) (calls : List (MemoryArea × Accessor)) : MemoryMap :=
  calls.foldl (fun mem call => (call.2.run call.1 mem).mem) mem

/-- The reference store: a refused call changes no bit. -/
def refCall (σ : BitStore) (call : MemoryArea × Accessor) : BitStore :=
  match call.2.refusal call.1 with
  | some _ => σ
  | none => call.2.effect call.1 σ

def refCalls (σ : BitStore) (calls : List (MemoryArea × Accessor)) : BitStore :=
  calls.foldl refCall σ

def refAnswer {α : Type} (area : MemoryArea) (acc : Accessor) (a : α) : Except Fault α :=
  match acc.refusal area with
  | some e => .error (.threw e)
  | none => .ok a

theorem run_call {area : MemoryArea} {acc : Accessor} (hw : acc.NoWrap) (mem : MemoryMap) :
    (acc.run area mem).result = refAnswer area acc () ∧
      (acc.run area mem).mem.bits = refCall mem.bits (area, acc) ∧
      (∀ e, acc.refusal area = some e → (acc.run area mem).mem = mem) := by
  cases h : acc.refusal area with
  | some e =>
    simp [acc.run_refused hw h, refAnswer, refCall, h]
  | none =>
    obtain ⟨mem', touched, hrun, hbits⟩ := Accessor.run_accepted h mem
    simp [hrun, hbits, refAnswer, refCall, h]

theorem runCalls_bits {calls : List (MemoryArea × Accessor)} (hw : ∀ call ∈ calls, call.2.NoWrap)
    (mem : MemoryMap) : (runCalls mem calls).bits = refCalls mem.bits calls := by
  induction calls generalizing mem with
  | nil => rfl
  | cons call rest ih =>
    have hcall := (@run_call call.1 call.2 (hw call List.mem_cons_self) mem).2.1
    have hrest := ih (fun c hc => hw c (List.mem_cons_of_mem _ hc)) (call.2.run call.1 mem).mem
    rw [hcall] at hrest
    exact hrest

/-! ### What the readers see -/

theorem read_answer {α : Type} {area : MemoryArea} {acc : Accessor} {x : MemM α} {a : α}
    {mem : MemoryMap} (hw : acc.NoWrap) (hrun : acc.run area = x >>= fun _ => pure ())
    (hok : acc.refusal area = none → ∃ touched, x mem = ⟨.ok a, mem, touched⟩) :
    x.exec mem = (refAnswer area acc a).map fun a => (a, mem) := by
  cases h : acc.refusal area with
  | some e =>
    have herr := acc.run_refused hw h mem
    rw [hrun] at herr
    rw [refAnswer, h, MemM.exec]
    cases hx : x mem with
    | mk result mem' touched =>
      cases result with
      | error e' =>
        rw [MemM.bind_error hx] at herr
        cases herr
        rfl
      | ok b =>
        rw [MemM.bind_ok hx] at herr
        exact absurd (congrArg Outcome.result herr) (by simp)
  | none =>
    obtain ⟨touched, hx⟩ := hok h
    rw [refAnswer, h, MemM.exec, hx]

/-- Every reader returns what the store holds or throws what its arguments
call for, and the next call does to the image what it does to the store. -/
structure Agrees (mem : MemoryMap) (σ : BitStore) : Prop where
  bits : mem.bits = σ
  call : ∀ area acc, acc.NoWrap → (acc.run area mem).result = refAnswer area acc () ∧
    (acc.run area mem).mem.bits = refCall σ (area, acc) ∧
    ∀ e, acc.refusal area = some e → (acc.run area mem).mem = mem
  read_bit : ∀ area offset bitIndex, (Accessor.readBit offset bitIndex).NoWrap →
    (readBit area offset bitIndex).exec mem =
      (refAnswer area (.readBit offset bitIndex) (σ area offset.toNat bitIndex.toNat)).map
        fun value => (value, mem)
  read_byte : ∀ area offset, (Accessor.readByte offset).NoWrap →
    (readByte area offset).exec mem =
      (refAnswer area (.readByte offset) (UInt8.ofNat (σ.byteValue area offset.toNat))).map
        fun byte => (byte, mem)
  read_bytes : ∀ area offset count, (Accessor.readBytes offset count).NoWrap →
    (readBytes area offset count).exec mem =
      (refAnswer area (.readBytes offset count) (σ.bytes area offset.toNat count.toNat)).map
        fun bytes => (bytes, mem)
  snapshot : ∀ area, (getAreaSnapshot area).exec mem = .ok (σ.bytes area 0 (getSize area), mem)

theorem agrees_bits (mem : MemoryMap) : Agrees mem mem.bits where
  bits := rfl
  call area acc hw := run_call hw mem
  read_bit area offset bitIndex hw := by
    refine read_answer hw rfl fun h => ?_
    obtain ⟨hbit, hle⟩ := Accessor.accepted h
    exact ⟨_, readBit_of_lt (hle : offset.toNat < getSize area) hbit mem⟩
  read_byte area offset hw := by
    refine read_answer hw rfl fun h => ?_
    exact ⟨_, readByte_of_lt ((Accessor.accepted h).2 : offset.toNat < getSize area) mem⟩
  read_bytes area offset count hw :=
    read_answer hw rfl fun h => readBytes_of_le (Accessor.accepted h).2 mem
  snapshot area := exec_getAreaSnapshot_bits area mem

theorem getAreaPtr_ext {mem mem' : MemoryMap} {area : MemoryArea}
    (h : ∀ i < getSize area, ∀ b, mem.bits area i b = mem'.bits area i b) :
    mem.getAreaPtr area = mem'.getAreaPtr area := by
  funext i
  apply ByteBits.bit_ext
  intro b _
  have hbit := h i i.isLt b
  rwa [mem.bits_of_lt i.isLt, mem'.bits_of_lt i.isLt] at hbit

/-- A snapshot copied back restores its area and leaves the others alone. -/
theorem restore {area : MemoryArea} {snapshot : ByteVector} {mem₀ : MemoryMap}
    (hsnap : (getAreaSnapshot area).exec mem₀ = .ok (snapshot.data, mem₀)) (mem : MemoryMap) :
    ∃ mem', (copySnapshotTo area snapshot).exec mem = .ok ((), mem') ∧
      mem'.getAreaPtr area = mem₀.getAreaPtr area ∧
      ∀ other, other ≠ area → mem'.getAreaPtr other = mem.getAreaPtr other := by
  rw [exec_getAreaSnapshot] at hsnap
  have hdata : snapshot.data = areaSnapshot mem₀ area :=
    (congrArg Prod.fst (Except.ok.inj hsnap)).symm
  have hlen : snapshot.data.length = getSize area := by rw [hdata, areaSnapshot, List.length_ofFn]
  have hle : (0 : UInt64).toNat + snapshot.data.length ≤ getSize area := by simp [hlen]
  obtain ⟨mem', touched, hcopy, hbits⟩ := storeChecked_of_le hle mem
  refine ⟨mem', MemM.exec_eq_ok.mpr ⟨touched, hcopy⟩, getAreaPtr_ext fun i hi b => ?_,
    fun other hne => getAreaPtr_ext fun i hi b => ?_⟩
  · have hin : area = area ∧ 0 ≤ i ∧ i < 0 + snapshot.data.length := ⟨rfl, by omega, by omega⟩
    have hget : snapshot.data.getD i 0 = mem₀.getAreaPtr area ⟨i, hi⟩ := by
      rw [hdata, areaSnapshot, List.getD_eq_getElem _ _ (by simpa using hi), List.getElem_ofFn]
    rw [hbits, BitStore.writeBytes, UInt64.toNat_zero, if_pos hin, Nat.sub_zero, hget,
      mem₀.bits_of_lt hi]
  · rw [hbits, BitStore.writeBytes, if_neg fun h => hne h.1]

/-- After any calls the image answers like the reference store, and a snapshot
of it copied back later restores the area as it was. -/
theorem runCalls_agrees (mem : MemoryMap) (calls : List (MemoryArea × Accessor))
    (hw : ∀ call ∈ calls, call.2.NoWrap) :
    Agrees (runCalls mem calls) (refCalls mem.bits calls) ∧
      ∀ area (snapshot : ByteVector) later, (∀ call ∈ later, call.2.NoWrap) →
        (getAreaSnapshot area).exec (runCalls mem calls) =
          .ok (snapshot.data, runCalls mem calls) →
        ∃ mem', (copySnapshotTo area snapshot).exec (runCalls mem (calls ++ later)) =
            .ok ((), mem') ∧
          mem'.getAreaPtr area = (runCalls mem calls).getAreaPtr area ∧
          ∀ other, other ≠ area →
            mem'.getAreaPtr other = (runCalls mem (calls ++ later)).getAreaPtr other := by
  refine ⟨runCalls_bits hw mem ▸ agrees_bits (runCalls mem calls), ?_⟩
  intro area snapshot later _ hsnap
  exact restore hsnap (runCalls mem (calls ++ later))

/-- Two overlapping writes of different granularity, a refused bit index and a
range that leaves its area. -/
def mixedCalls : List (MemoryArea × Accessor) :=
  [(.input, .writeByte 3 0xA5), (.input, .writeBit 3 1 true), (.input, .writeBit 3 8 true),
    (.output, .writeBytes 510 ⟨[1, 2, 3], by decide⟩)]

theorem runCalls_agrees_mixed :
    (refCalls (MemoryMap.bits {}) mixedCalls).byteValue .input 3 = 0xA7 ∧
      Agrees (runCalls {} mixedCalls) (refCalls (MemoryMap.bits {}) mixedCalls) :=
  ⟨by decide, (runCalls_agrees {} mixedCalls (by
    unfold mixedCalls Accessor.NoWrap
    decide)).1⟩

end Openaslc
