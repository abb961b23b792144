import Openaslc.MemoryMap

/-! The image as a store of addressed bits, and what the bit accessors do to
it at an address that exists. -/

namespace Openaslc

/-- A bit that exists: the byte lies inside its area. -/
structure SignalAddr where
  area : MemoryArea
  byte : Fin (getSize area)
  bit : Fin 8
  deriving DecidableEq

namespace SignalAddr

def byteOffset (a : SignalAddr) : UInt64 := UInt64.ofNat a.byte

def bitIndex (a : SignalAddr) : UInt8 := UInt8.ofNat a.bit

@[simp] theorem toNat_byteOffset (a : SignalAddr) : a.byteOffset.toNat = a.byte := by
  have hb := a.byte.isLt
  have hs := getSize_le a.area
  rw [byteOffset, UInt64.toNat_ofNat', Nat.mod_eq_of_lt (by omega)]

@[simp] theorem toNat_bitIndex (a : SignalAddr) : a.bitIndex.toNat = a.bit := by
  have hb := a.bit.isLt
  rw [bitIndex, UInt8.toNat_ofNat', Nat.mod_eq_of_lt (by omega)]

theorem bitIndex_le (a : SignalAddr) : a.bitIndex ≤ 7 := by
  have hb := a.bit.isLt
  rw [UInt8.le_iff_toNat_le, toNat_bitIndex]
  have h7 : (7 : UInt8).toNat = 7 := rfl
  omega

theorem ext_iff' {a a' : SignalAddr} :
    a = a' ↔ a.area = a'.area ∧ a.byte.val = a'.byte.val ∧ a.bit = a'.bit := by
  constructor
  · rintro rfl
    exact ⟨rfl, rfl, rfl⟩
  · obtain ⟨area, byte, bit⟩ := a
    obtain ⟨area', byte', bit'⟩ := a'
    rintro ⟨ha, hb, hc⟩
    simp only at ha hb hc
    subst ha
    subst hc
    rw [Fin.ext hb]

end SignalAddr

namespace MemoryMap

def bitAt (mem : MemoryMap) (a : SignalAddr) : Bool :=
  ByteBits.bit (mem.getAreaPtr a.area a.byte) a.bit

def setByte (mem : MemoryMap) (area : MemoryArea) (i : Fin (getSize area)) (value : UInt8) :
    MemoryMap :=
  mem.setAreaPtr area (Function.update (mem.getAreaPtr area) i value)

def setBitAt (mem : MemoryMap) (a : SignalAddr) (value : Bool) : MemoryMap :=
  mem.setByte a.area a.byte
    (if value then mem.getAreaPtr a.area a.byte ||| ByteBits.mask a.bitIndex
      else mem.getAreaPtr a.area a.byte &&& ~~~ByteBits.mask a.bitIndex)

theorem getAreaPtr_setByte_self (mem : MemoryMap) (area : MemoryArea) (i j : Fin (getSize area))
    (value : UInt8) :
    (mem.setByte area i value).getAreaPtr area j =
      if j = i then value else mem.getAreaPtr area j := by
  rw [setByte, getAreaPtr_setAreaPtr, Function.update_apply]

theorem getAreaPtr_setByte_ne (mem : MemoryMap) {area other : MemoryArea} (h : other ≠ area)
    (i : Fin (getSize area)) (value : UInt8) :
    (mem.setByte area i value).getAreaPtr other = mem.getAreaPtr other :=
  mem.getAreaPtr_setAreaPtr_ne h _

theorem bitAt_setBitAt (mem : MemoryMap) (a a' : SignalAddr) (value : Bool) :
    (mem.setBitAt a value).bitAt a' = if a' = a then value else mem.bitAt a' := by
  have hle := a.bitIndex_le
  by_cases harea : a'.area = a.area
  · obtain ⟨area', byte', bit'⟩ := a'
    simp only at harea
    subst harea
    rw [bitAt, setBitAt, getAreaPtr_setByte_self]
    by_cases hbyte : byte' = a.byte
    · subst hbyte
      have hbit : (bit'.val = a.bit.val) ↔ ((⟨a.area, a.byte, bit'⟩ : SignalAddr) = a) := by
        rw [SignalAddr.ext_iff', ← Fin.ext_iff]
        simp
      cases value
      · simp only [Bool.false_eq_true, if_false, if_true, ByteBits.bit_clear _ hle bit'.isLt,
          SignalAddr.toNat_bitIndex, hbit]
        rfl
      · simp only [if_true, ByteBits.bit_set _ hle, SignalAddr.toNat_bitIndex, hbit]
        rfl
    · have hne : (⟨a.area, byte', bit'⟩ : SignalAddr) ≠ a := fun he =>
        hbyte (Fin.ext (SignalAddr.ext_iff'.mp he).2.1)
      rw [if_neg hbyte, if_neg hne]
      rfl
  · have hne : a' ≠ a := fun he => harea (by rw [he])
    rw [bitAt, setBitAt, getAreaPtr_setByte_ne mem harea, if_neg hne]
    rfl

theorem ext_bits {mem mem' : MemoryMap} (h : ∀ a, mem.bitAt a = mem'.bitAt a) : mem = mem' := by
  apply MemoryMap.ext_areas
  intro area
  funext byte
  apply ByteBits.bit_ext
  intro i hi
  exact h ⟨area, byte, ⟨i, hi⟩⟩

end MemoryMap

/-! ### The accessors at an existing address -/

theorem validateBounds_addr (a : SignalAddr) (mem : MemoryMap) :
    validateBounds a.area a.byteOffset 1 mem = ⟨.ok (), mem, []⟩ := by
  have hb := a.byte.isLt
  have hs := getSize_le a.area
  have hn : ¬ a.byteOffset + 1 > UInt64.ofNat (getSize a.area) := by
    rw [gt_iff_lt, UInt64.lt_iff_toNat_lt, UInt64.toNat_add, SignalAddr.toNat_byteOffset,
      UInt64.toNat_ofNat', UInt64.toNat_one]
    omega
  rw [validateBounds, if_neg hn]
  rfl

theorem load_addr (a : SignalAddr) (mem : MemoryMap) :
    MemM.load a.area a.byteOffset.toNat mem =
      ⟨.ok (mem.getAreaPtr a.area a.byte), mem, [(a.area, a.byte.val)]⟩ := by
  simp [MemM.load]

theorem store_addr (a : SignalAddr) (value : UInt8) (mem : MemoryMap) :
    MemM.store a.area a.byteOffset.toNat value mem =
      ⟨.ok (), mem.setByte a.area a.byte value, [(a.area, a.byte.val)]⟩ := by
  simp [MemM.store, MemoryMap.setByte]

theorem readBit_addr (a : SignalAddr) (mem : MemoryMap) :
    (readBit a.area a.byteOffset a.bitIndex).exec mem = .ok (mem.bitAt a, mem) := by
  have hle := a.bitIndex_le
  rw [readBit, if_neg (UInt8.not_lt.mpr hle), readByte, MemM.bind_assoc, MemM.exec,
    MemM.bind_ok (validateBounds_addr a mem), MemM.bind_ok (load_addr a mem)]
  simp only [MemM.pure_apply, ByteBits.masked_ne_zero _ hle, SignalAddr.toNat_bitIndex]
  rfl

theorem writeBit_addr (a : SignalAddr) (value : Bool) (mem : MemoryMap) :
    (writeBit a.area a.byteOffset a.bitIndex value).exec mem = .ok ((), mem.setBitAt a value) := by
  have hle := a.bitIndex_le
  rw [writeBit, if_neg (UInt8.not_lt.mpr hle), MemM.exec,
    MemM.bind_ok (validateBounds_addr a mem), MemM.bind_ok (load_addr a mem)]
  cases value
  · simp only [Bool.false_eq_true, if_false, store_addr, MemoryMap.setBitAt]
    rfl
  · simp only [if_true, store_addr, MemoryMap.setBitAt]
    rfl

end Openaslc
