import Openaslc.MemoryMap

/-! What the shared bounds check admits over the whole 64-bit range. The sum
`offset + count` wraps, and exactly the wrapped sums that land inside the area
let an access through that leaves it. -/

namespace Openaslc

/-- The indices a member function may dereference, and that it never reports
an access out of bounds by itself. -/
def Touches {α : Type} (area : MemoryArea) (lo hi : Nat) (x : MemM α) : Prop :=
  ∀ mem, (∀ t ∈ (x mem).touched, t.1 = area ∧ lo ≤ t.2 ∧ t.2 < hi) ∧
    ∀ what, (x mem).result ≠ .error (.threw (.outOfRange what))

theorem Touches.pure {α : Type} (area : MemoryArea) (lo hi : Nat) (a : α) :
    Touches area lo hi (Pure.pure a : MemM α) := by
  intro mem
  simp

theorem Touches.bind {α β : Type} {area : MemoryArea} {lo hi : Nat} {x : MemM α} {f : α → MemM β}
    (hx : Touches area lo hi x) (hf : ∀ a, Touches area lo hi (f a)) :
    Touches area lo hi (x >>= f) := by
  intro mem
  have hm := hx mem
  cases he : x mem with
  | mk result mem' touched =>
    rw [he] at hm
    cases result with
    | error e =>
      rw [MemM.bind_error he]
      simpa using hm
    | ok a =>
      rw [MemM.bind_ok he]
      refine ⟨fun t ht => ?_, (hf a mem').2⟩
      rcases List.mem_append.mp ht with ht | ht
      · exact hm.1 t ht
      · exact (hf a mem').1 t ht

theorem Touches.mono {α : Type} {area : MemoryArea} {lo hi lo' hi' : Nat} {x : MemM α}
    (h : Touches area lo hi x) (hlo : lo' ≤ lo) (hhi : hi ≤ hi') : Touches area lo' hi' x := by
  intro mem
  refine ⟨fun t ht => ?_, (h mem).2⟩
  have := (h mem).1 t ht
  exact ⟨this.1, by omega, by omega⟩

theorem touches_load (area : MemoryArea) (i : Nat) : Touches area i (i + 1) (MemM.load area i) := by
  intro mem
  by_cases h : i < getSize area <;> simp [MemM.load, h]

theorem touches_store (area : MemoryArea) (i : Nat) (value : UInt8) :
    Touches area i (i + 1) (MemM.store area i value) := by
  intro mem
  by_cases h : i < getSize area <;> simp [MemM.store, h]

theorem touches_loadRange (area : MemoryArea) (start count : Nat) :
    Touches area start (start + count) (MemM.loadRange area start count) := by
  induction count generalizing start with
  | zero => exact Touches.pure _ _ _ _
  | succ count ih =>
    refine Touches.bind ((touches_load area start).mono (by omega) (by omega)) fun byte => ?_
    exact Touches.bind ((ih (start + 1)).mono (by omega) (by omega)) fun rest => Touches.pure _ _ _ _

theorem touches_storeRange (area : MemoryArea) (start : Nat) (data : List UInt8) :
    Touches area start (start + data.length) (MemM.storeRange area start data) := by
  induction data generalizing start with
  | nil => exact Touches.pure _ _ _ _
  | cons byte rest ih =>
    simp only [List.length_cons]
    exact Touches.bind ((touches_store area start byte).mono (by omega) (by omega)) fun _ =>
      (ih (start + 1)).mono (by omega) (by omega)

/-! ### The guard -/

theorem validateBounds_iff (area : MemoryArea) (offset count : UInt64) :
    offset + count > UInt64.ofNat (getSize area) ↔
      getSize area < (offset.toNat + count.toNat) % 2 ^ 64 := by
  have hs := getSize_le area
  rw [gt_iff_lt, UInt64.lt_iff_toNat_lt, UInt64.toNat_add, UInt64.toNat_ofNat',
    Nat.mod_eq_of_lt (by omega : getSize area < 2 ^ 64)]

theorem validateBounds_throws {area : MemoryArea} {offset count : UInt64}
    (h : getSize area < (offset.toNat + count.toNat) % 2 ^ 64) (mem : MemoryMap) :
    validateBounds area offset count mem =
      ⟨.error (.threw (.outOfRange "MemoryMap access out of bounds")), mem, []⟩ := by
  rw [validateBounds, if_pos ((validateBounds_iff area offset count).mpr h)]
  rfl

theorem validateBounds_passes {area : MemoryArea} {offset count : UInt64}
    (h : (offset.toNat + count.toNat) % 2 ^ 64 ≤ getSize area) (mem : MemoryMap) :
    validateBounds area offset count mem = ⟨.ok (), mem, []⟩ := by
  rw [validateBounds, if_neg fun hgt => absurd ((validateBounds_iff area offset count).mp hgt) (by omega)]
  rfl

/-! ### The seven accessors -/

inductive Accessor
  | readByte (offset : UInt64)
  | writeByte (offset : UInt64) (value : UInt8)
  | readBit (offset : UInt64) (bitIndex : UInt8)
  | writeBit (offset : UInt64) (bitIndex : UInt8) (value : Bool)
  | readBytes (offset count : UInt64)
  | writeBytes (offset : UInt64) (data : ByteVector)
  | copySnapshotTo (snapshot : ByteVector)

namespace Accessor

def offset : Accessor → UInt64
  | readByte offset | writeByte offset _ | readBit offset _ | writeBit offset _ _
  | readBytes offset _ | writeBytes offset _ => offset
  | copySnapshotTo _ => 0

def count : Accessor → UInt64
  | readByte _ | writeByte _ _ | readBit _ _ | writeBit _ _ _ => 1
  | readBytes _ count => count
  | writeBytes _ data | copySnapshotTo data => data.size

def bitIndex : Accessor → UInt8
  | readBit _ bitIndex | writeBit _ bitIndex _ => bitIndex
  | _ => 0

def run (area : MemoryArea) : Accessor → MemM Unit
  | readByte offset => do let _ ← Openaslc.readByte area offset
  | writeByte offset value => Openaslc.writeByte area offset value
  | readBit offset bitIndex => do let _ ← Openaslc.readBit area offset bitIndex
  | writeBit offset bitIndex value => Openaslc.writeBit area offset bitIndex value
  | readBytes offset count => do let _ ← Openaslc.readBytes area offset count
  | writeBytes offset data => Openaslc.writeBytes area offset data
  | copySnapshotTo snapshot => Openaslc.copySnapshotTo area snapshot

/-- Every accessor is the guard followed by accesses to
`offset, ..., offset + count - 1`. -/
theorem run_eq (area : MemoryArea) (acc : Accessor) (hb : acc.bitIndex ≤ 7) :
    ∃ body : MemM Unit, acc.run area = (do validateBounds area acc.offset acc.count; body) ∧
      Touches area acc.offset.toNat (acc.offset.toNat + acc.count.toNat) body := by
  cases acc with
  | readByte offset =>
    refine ⟨do let _ ← MemM.load area offset.toNat, ?_, ?_⟩
    · rw [run, Openaslc.readByte, MemM.bind_assoc]
      rfl
    · exact Touches.bind (touches_load area _) fun _ => Touches.pure _ _ _ _
  | writeByte offset value => exact ⟨MemM.store area offset.toNat value, rfl, touches_store area _ _⟩
  | readBit offset bitIndex =>
    have hn : ¬ bitIndex > 7 := UInt8.not_lt.mpr hb
    refine ⟨do
      let byteVal ← MemM.load area offset.toNat
      let _ ← (pure (decide (byteVal &&& ByteBits.mask bitIndex ≠ 0)) : MemM Bool), ?_, ?_⟩
    · rw [run, Openaslc.readBit, if_neg hn, Openaslc.readByte, MemM.bind_assoc, MemM.bind_assoc]
      rfl
    · exact Touches.bind (touches_load area _) fun _ =>
        Touches.bind (Touches.pure _ _ _ _) fun _ => Touches.pure _ _ _ _
  | writeBit offset bitIndex value =>
    have hn : ¬ bitIndex > 7 := UInt8.not_lt.mpr hb
    refine ⟨do
      let byte ← MemM.load area offset.toNat
      if value then MemM.store area offset.toNat (byte ||| ByteBits.mask bitIndex)
      else MemM.store area offset.toNat (byte &&& ~~~ByteBits.mask bitIndex), ?_, ?_⟩
    · rw [run, Openaslc.writeBit, if_neg hn]
      rfl
    · refine Touches.bind (touches_load area _) fun byte => ?_
      cases value
      · exact touches_store area _ _
      · exact touches_store area _ _
  | readBytes offset count =>
    refine ⟨do
      let _ ← (if vectorMaxSize < count.toNat then
          MemM.raise (.lengthError "cannot create std::vector larger than max_size()")
        else MemM.loadRange area offset.toNat count.toNat), ?_, ?_⟩
    · rw [run, Openaslc.readBytes, MemM.bind_assoc]
      rfl
    · refine Touches.bind ?_ fun _ => Touches.pure _ _ _ _
      split
      · intro mem
        simp [MemM.raise]
      · exact touches_loadRange area _ _
  | writeBytes offset data =>
    refine ⟨MemM.storeRange area offset.toNat data.data, rfl, ?_⟩
    have h := touches_storeRange area offset.toNat data.data
    rw [← ByteVector.toNat_size] at h
    exact h
  | copySnapshotTo snapshot =>
    refine ⟨MemM.storeRange area 0 snapshot.data, rfl, ?_⟩
    have h := touches_storeRange area 0 snapshot.data
    rw [← ByteVector.toNat_size] at h
    exact h

theorem run_bitIndex {area : MemoryArea} {acc : Accessor} (hb : 7 < acc.bitIndex) (mem : MemoryMap) :
    acc.run area mem = ⟨.error (.threw (.invalidArgument "Bit index must be 0..7")), mem, []⟩ := by
  cases acc with
  | readBit offset bitIndex =>
    have hn : bitIndex > 7 := hb
    rw [run, Openaslc.readBit, if_pos hn]
    rfl
  | writeBit offset bitIndex value =>
    have hn : bitIndex > 7 := hb
    rw [run, Openaslc.writeBit, if_pos hn]
    rfl
  | _ => exact absurd hb (by simp [bitIndex])

end Accessor

/-- The contract of one accessor call: it throws and changes nothing, or it
stays inside `[offset, offset + count)` and inside the area; and it reports
`std::out_of_range` exactly when the range, taken exactly, leaves the area. -/
def Guarded (area : MemoryArea) (acc : Accessor) (mem : MemoryMap) : Prop :=
  ((∃ e, (acc.run area mem).result = .error (.threw e)) ∧ (acc.run area mem).mem = mem ∨
    (∀ t ∈ (acc.run area mem).touched,
      t.1 = area ∧ acc.offset.toNat ≤ t.2 ∧ t.2 < acc.offset.toNat + acc.count.toNat) ∧
    acc.offset.toNat + acc.count.toNat ≤ getSize area) ∧
  (acc.bitIndex ≤ 7 →
    ((∃ what, (acc.run area mem).result = .error (.threw (.outOfRange what))) ↔
      getSize area < acc.offset.toNat + acc.count.toNat))

/-- The sum of offset and count is at least 2^64 and, once wrapped, inside the
area: the guard lets the access through. -/
def WrapsInside (area : MemoryArea) (acc : Accessor) : Prop :=
  2 ^ 64 ≤ acc.offset.toNat + acc.count.toNat ∧
    acc.offset.toNat + acc.count.toNat - 2 ^ 64 ≤ getSize area

theorem guarded_of_throws {area : MemoryArea} {acc : Accessor} {mem : MemoryMap}
    (hb : acc.bitIndex ≤ 7)
    (h : getSize area < (acc.offset.toNat + acc.count.toNat) % 2 ^ 64) : Guarded area acc mem := by
  obtain ⟨body, hrun, _⟩ := acc.run_eq area hb
  have hout : acc.run area mem =
      ⟨.error (.threw (.outOfRange "MemoryMap access out of bounds")), mem, []⟩ := by
    rw [hrun, MemM.bind_error (validateBounds_throws h mem)]
  have hle := Nat.mod_le (acc.offset.toNat + acc.count.toNat) (2 ^ 64)
  refine ⟨Or.inl ⟨⟨_, by rw [hout]⟩, by rw [hout]⟩, fun _ => ?_⟩
  rw [hout]
  exact ⟨fun _ => by omega, fun _ => ⟨_, rfl⟩⟩

theorem run_of_passes {area : MemoryArea} {acc : Accessor} (mem : MemoryMap)
    (hb : acc.bitIndex ≤ 7)
    (h : (acc.offset.toNat + acc.count.toNat) % 2 ^ 64 ≤ getSize area) :
    (∀ t ∈ (acc.run area mem).touched,
      t.1 = area ∧ acc.offset.toNat ≤ t.2 ∧ t.2 < acc.offset.toNat + acc.count.toNat) ∧
    ∀ what, (acc.run area mem).result ≠ .error (.threw (.outOfRange what)) := by
  obtain ⟨body, hrun, hbody⟩ := acc.run_eq area hb
  rw [hrun, MemM.bind_ok (validateBounds_passes h mem)]
  simpa using hbody mem

theorem guarded_of_not_wraps {area : MemoryArea} {acc : Accessor} (mem : MemoryMap)
    (hb : acc.bitIndex ≤ 7) (h : ¬ WrapsInside area acc) : Guarded area acc mem := by
  have ho := acc.offset.toNat_lt
  have hc := acc.count.toNat_lt
  have hs := getSize_le area
  by_cases hlt : getSize area < (acc.offset.toNat + acc.count.toNat) % 2 ^ 64
  · exact guarded_of_throws hb hlt
  · have hin : acc.offset.toNat + acc.count.toNat ≤ getSize area := by
      simp only [WrapsInside, not_and] at h
      omega
    obtain ⟨htouch, hno⟩ := run_of_passes mem hb (Nat.not_lt.mp hlt)
    exact ⟨Or.inr ⟨htouch, hin⟩, fun _ =>
      ⟨fun ⟨what, hw⟩ => absurd hw (hno what), fun hgt => absurd hgt (by omega)⟩⟩

/-- The wrapped sum passes the guard although the exact one leaves the area. -/
theorem not_guarded_of_wraps {area : MemoryArea} {acc : Accessor} (mem : MemoryMap)
    (hb : acc.bitIndex ≤ 7) (h : WrapsInside area acc) : ¬ Guarded area acc mem := by
  intro hg
  have ho := acc.offset.toNat_lt
  have hc := acc.count.toNat_lt
  have hs := getSize_le area
  obtain ⟨h₁, h₂⟩ := h
  obtain ⟨what, hthrow⟩ := (hg.2 hb).mpr (by omega)
  exact (run_of_passes mem hb (by omega)).2 what hthrow

/-- An accessor keeps its contract exactly when its bit index is refused or
its range does not wrap into the area. -/
theorem guarded_iff (area : MemoryArea) (acc : Accessor) (mem : MemoryMap) :
    Guarded area acc mem ↔ 7 < acc.bitIndex ∨ ¬ WrapsInside area acc := by
  by_cases hb : 7 < acc.bitIndex
  · refine ⟨fun _ => Or.inl hb, fun _ => ⟨Or.inl ?_, fun hle => ?_⟩⟩
    · rw [Accessor.run_bitIndex hb mem]
      exact ⟨⟨_, rfl⟩, rfl⟩
    · exact absurd hb (UInt8.not_lt.mpr hle)
  · have hb' : acc.bitIndex ≤ 7 := UInt8.not_lt.mp hb
    constructor
    · exact fun hg => Or.inr fun hw => not_guarded_of_wraps mem hb' hw hg
    · rintro (h | h)
      · exact absurd h hb
      · exact guarded_of_not_wraps mem hb' h

/-- `read_byte(Input, SIZE_MAX)`: the sum wraps to 0, so the byte at index
2^64 - 1 is dereferenced. -/
theorem not_guarded_readByte_max : ¬ Guarded .input (.readByte 0xFFFFFFFFFFFFFFFF) {} :=
  not_guarded_of_wraps {} (by decide)
    ⟨by decide, by decide⟩

end Openaslc
