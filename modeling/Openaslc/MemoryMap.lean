import Openaslc.ByteBits
import Openaslc.StandardLibrary

/-! The process image %I, %Q and %M and its accessors. Every accessor reports
the raw indices it dereferenced together with its result. -/

namespace Openaslc

inductive MemoryArea
  | input
  | output
  | memory
  deriving DecidableEq, Repr

abbrev inputSize : Nat := 512

abbrev outputSize : Nat := 512

abbrev memorySize : Nat := 1024

def getSize : MemoryArea → Nat
  | .input => inputSize
  | .output => outputSize
  | .memory => memorySize

theorem getSize_pos (area : MemoryArea) : 0 < getSize area := by
  cases area <;> decide

theorem getSize_le (area : MemoryArea) : getSize area ≤ 1024 := by
  cases area <;> decide

@[ext] structure MemoryMap where
  inputArea : Fin inputSize → UInt8 := fun _ => 0
  outputArea : Fin outputSize → UInt8 := fun _ => 0
  memoryArea : Fin memorySize → UInt8 := fun _ => 0

namespace MemoryMap

def getAreaPtr (mem : MemoryMap) : (area : MemoryArea) → Fin (getSize area) → UInt8
  | .input => mem.inputArea
  | .output => mem.outputArea
  | .memory => mem.memoryArea

def setAreaPtr (mem : MemoryMap) : (area : MemoryArea) → (Fin (getSize area) → UInt8) → MemoryMap
  | .input, bytes => { mem with inputArea := bytes }
  | .output, bytes => { mem with outputArea := bytes }
  | .memory, bytes => { mem with memoryArea := bytes }

@[simp] theorem getAreaPtr_setAreaPtr (mem : MemoryMap) (area : MemoryArea)
    (bytes : Fin (getSize area) → UInt8) : (mem.setAreaPtr area bytes).getAreaPtr area = bytes := by
  cases area <;> rfl

theorem getAreaPtr_setAreaPtr_ne (mem : MemoryMap) {area other : MemoryArea} (h : other ≠ area)
    (bytes : Fin (getSize area) → UInt8) :
    (mem.setAreaPtr area bytes).getAreaPtr other = mem.getAreaPtr other := by
  cases area <;> cases other <;> first | rfl | exact absurd rfl h

theorem ext_areas {mem mem' : MemoryMap} (h : ∀ area, mem.getAreaPtr area = mem'.getAreaPtr area) :
    mem = mem' :=
  MemoryMap.ext (h .input) (h .output) (h .memory)

end MemoryMap

/-! ### Accessors -/

structure Outcome (α : Type) where
  result : Except Fault α
  mem : MemoryMap
  touched : List (MemoryArea × Nat)

/-- A member function of `MemoryMap`: it may throw, change the areas, and
dereference `get_area_ptr(area)[i]`. -/
def MemM (α : Type) : Type := MemoryMap → Outcome α

instance : Monad MemM where
  pure a := fun mem => ⟨.ok a, mem, []⟩
  bind x f := fun mem =>
    match x mem with
    | ⟨.error e, mem', touched⟩ => ⟨.error e, mem', touched⟩
    | ⟨.ok a, mem', touched⟩ =>
      let next := f a mem'
      ⟨next.result, next.mem, touched ++ next.touched⟩

namespace MemM

theorem bind_apply {α β : Type} (x : MemM α) (f : α → MemM β) (mem : MemoryMap) :
    (x >>= f) mem = match x mem with
      | ⟨.error e, mem', touched⟩ => ⟨.error e, mem', touched⟩
      | ⟨.ok a, mem', touched⟩ =>
        ⟨(f a mem').result, (f a mem').mem, touched ++ (f a mem').touched⟩ := rfl

@[simp] theorem pure_apply {α : Type} (a : α) (mem : MemoryMap) :
    (pure a : MemM α) mem = ⟨.ok a, mem, []⟩ := rfl

theorem bind_ok {α β : Type} {x : MemM α} {mem mem' : MemoryMap} {a : α}
    {touched : List (MemoryArea × Nat)} (h : x mem = ⟨.ok a, mem', touched⟩) (f : α → MemM β) :
    (x >>= f) mem = ⟨(f a mem').result, (f a mem').mem, touched ++ (f a mem').touched⟩ := by
  rw [bind_apply, h]

theorem bind_error {α β : Type} {x : MemM α} {mem mem' : MemoryMap} {e : Fault}
    {touched : List (MemoryArea × Nat)} (h : x mem = ⟨.error e, mem', touched⟩) (f : α → MemM β) :
    (x >>= f) mem = ⟨.error e, mem', touched⟩ := by
  rw [bind_apply, h]

theorem bind_assoc {α β γ : Type} (x : MemM α) (f : α → MemM β) (g : β → MemM γ) :
    x >>= f >>= g = x >>= fun a => f a >>= g := by
  funext mem
  cases hx : x mem with
  | mk result mem' touched =>
    cases result with
    | error e => rw [bind_error (bind_error hx f) g, bind_error hx]
    | ok a =>
      rw [bind_ok hx]
      cases hf : f a mem' with
      | mk result mem'' touched' =>
        have hxf := bind_ok hx f
        rw [hf] at hxf
        cases result with
        | error e => rw [bind_error hxf, bind_error hf]
        | ok b => rw [bind_ok hxf, bind_ok hf, List.append_assoc]

def raise {α : Type} (e : Exception) : MemM α := fun mem => ⟨.error (.threw e), mem, []⟩

def load (area : MemoryArea) (i : Nat) : MemM UInt8 := fun mem =>
  if h : i < getSize area then ⟨.ok (mem.getAreaPtr area ⟨i, h⟩), mem, [(area, i)]⟩
  else ⟨.error .undefinedBehaviour, mem, [(area, i)]⟩

def store (area : MemoryArea) (i : Nat) (value : UInt8) : MemM Unit := fun mem =>
  if h : i < getSize area then
    ⟨.ok (), mem.setAreaPtr area (Function.update (mem.getAreaPtr area) ⟨i, h⟩ value), [(area, i)]⟩
  else ⟨.error .undefinedBehaviour, mem, [(area, i)]⟩

/-- `std::vector<uint8_t>(ptr, ptr + count)`. -/
def loadRange (area : MemoryArea) (start : Nat) : Nat → MemM (List UInt8)
  | 0 => pure []
  | count + 1 => do
    let byte ← load area start
    let rest ← loadRange area (start + 1) count
    pure (byte :: rest)

/-- `std::copy(data.begin(), data.end(), ptr)`. -/
def storeRange (area : MemoryArea) (start : Nat) : List UInt8 → MemM Unit
  | [] => pure ()
  | byte :: rest => do
    store area start byte
    storeRange area (start + 1) rest

/-- The call seen from outside: what it returned and the image it left. -/
def exec {α : Type} (x : MemM α) (mem : MemoryMap) : Except Fault (α × MemoryMap) :=
  (x mem).result.map fun a => (a, (x mem).mem)

theorem exec_eq_ok {α : Type} {x : MemM α} {mem mem' : MemoryMap} {a : α} :
    x.exec mem = .ok (a, mem') ↔ ∃ touched, x mem = ⟨.ok a, mem', touched⟩ := by
  rw [exec]
  cases hx : x mem with
  | mk result mem'' touched =>
    cases result <;> simp [Except.map]

end MemM

def validateBounds (area : MemoryArea) (offset count : UInt64) : MemM Unit :=
  -- `offset + count` is a `size_t` sum, so it wraps
  if offset + count > UInt64.ofNat (getSize area) then
    MemM.raise (.outOfRange "MemoryMap access out of bounds")
  else pure ()

def readByte (area : MemoryArea) (offset : UInt64) : MemM UInt8 := do
  validateBounds area offset 1
  MemM.load area offset.toNat

def writeByte (area : MemoryArea) (offset : UInt64) (value : UInt8) : MemM Unit := do
  validateBounds area offset 1
  MemM.store area offset.toNat value

def readBit (area : MemoryArea) (byteOffset : UInt64) (bitIndex : UInt8) : MemM Bool :=
  if bitIndex > 7 then MemM.raise (.invalidArgument "Bit index must be 0..7")
  else do
    let byteVal ← readByte area byteOffset
    pure (decide (byteVal &&& ByteBits.mask bitIndex ≠ 0))

def writeBit (area : MemoryArea) (byteOffset : UInt64) (bitIndex : UInt8) (value : Bool) :
    MemM Unit :=
  if bitIndex > 7 then MemM.raise (.invalidArgument "Bit index must be 0..7")
  else do
    validateBounds area byteOffset 1
    let byte ← MemM.load area byteOffset.toNat
    if value then MemM.store area byteOffset.toNat (byte ||| ByteBits.mask bitIndex)
    else MemM.store area byteOffset.toNat (byte &&& ~~~ByteBits.mask bitIndex)

def readBytes (area : MemoryArea) (offset count : UInt64) : MemM (List UInt8) := do
  validateBounds area offset count
  if vectorMaxSize < count.toNat then
    MemM.raise (.lengthError "cannot create std::vector larger than max_size()")
  else MemM.loadRange area offset.toNat count.toNat

def writeBytes (area : MemoryArea) (offset : UInt64) (data : ByteVector) : MemM Unit := do
  validateBounds area offset data.size
  MemM.storeRange area offset.toNat data.data

def getAreaSnapshot (area : MemoryArea) : MemM (List UInt8) :=
  MemM.loadRange area 0 (getSize area)

def copySnapshotTo (area : MemoryArea) (snapshot : ByteVector) : MemM Unit := do
  validateBounds area 0 snapshot.size
  MemM.storeRange area 0 snapshot.data

/-! ### Accesses inside an area -/

theorem load_of_lt {area : MemoryArea} {i : Nat} (h : i < getSize area) (mem : MemoryMap) :
    MemM.load area i mem = ⟨.ok (mem.getAreaPtr area ⟨i, h⟩), mem, [(area, i)]⟩ :=
  dif_pos h

def areaSnapshot (mem : MemoryMap) (area : MemoryArea) : List UInt8 :=
  List.ofFn (mem.getAreaPtr area)

theorem add_lt_getSize {area : MemoryArea} {start count : Nat} (h : start + count ≤ getSize area)
    (i : Fin count) : start + i < getSize area := by
  omega

theorem loadRange_of_le (area : MemoryArea) {start count : Nat} (h : start + count ≤ getSize area)
    (mem : MemoryMap) : MemM.loadRange area start count mem =
      ⟨.ok (List.ofFn fun i : Fin count => mem.getAreaPtr area ⟨start + i, add_lt_getSize h i⟩), mem,
        (List.range' start count).map fun i => (area, i)⟩ := by
  induction count generalizing start with
  | zero => rfl
  | succ count ih =>
    have hload := load_of_lt (by omega : start < getSize area) mem
    have hrest := @ih (start + 1) (by omega)
    rw [MemM.loadRange, MemM.bind_ok hload, MemM.bind_ok hrest]
    have hshift : ∀ i, start + 1 + i = start + (i + 1) := fun i => by omega
    simp [List.ofFn_succ, List.range'_succ, hshift]

theorem exec_loadRange (area : MemoryArea) {start count : Nat} (h : start + count ≤ getSize area)
    (mem : MemoryMap) : (MemM.loadRange area start count).exec mem =
      .ok (List.ofFn fun i : Fin count => mem.getAreaPtr area ⟨start + i, add_lt_getSize h i⟩, mem) := by
  rw [MemM.exec, loadRange_of_le area h]
  rfl

theorem exec_getAreaSnapshot (area : MemoryArea) (mem : MemoryMap) :
    (getAreaSnapshot area).exec mem = .ok (areaSnapshot mem area, mem) := by
  simpa [getAreaSnapshot, areaSnapshot] using
    exec_loadRange area (Nat.le_of_eq (Nat.zero_add (getSize area))) mem

end Openaslc
