import Openaslc.DeployHandler
import Openaslc.JsonText

/-! `POST /api/input` with `MockDriver::set_mock_input_bit` as its callback:
which input bit a request moves. -/

namespace Openaslc

/-! ### Conversions of `nlohmann::json` -/

namespace Json

/-- A double with its fraction cut off, if it is finite. -/
def truncated? (bits : UInt64) : Option Int :=
  let exponent := bits.toNat / 2 ^ 52 % 2 ^ 11
  let fraction := bits.toNat % 2 ^ 52
  let mantissa := if exponent = 0 then fraction else 2 ^ 52 + fraction
  let magnitude : Nat := mantissa * 2 ^ max exponent 1 / 2 ^ 1075
  if exponent = 2047 then none
  else some (if bits.toNat.testBit 63 then -magnitude else magnitude)

/-- `static_cast` of a double to an unsigned type of this width is undefined
for a value that the type does not hold. -/
def castFloat (width : Nat) (bits : UInt64) : Except Fault Nat :=
  match truncated? bits with
  | some value => if 0 ≤ value ∧ value < 2 ^ width then .ok value.toNat else .error .undefinedBehaviour
  | none => .error .undefinedBehaviour

def notNumber (j : Json) : Fault :=
  .threw (.jsonTypeError ("[json.exception.type_error.302] type must be number, but is " ++ j.typeName))

/-- `get<std::size_t>()` -/
def getSize : Json → Except Fault UInt64
  | .numberUnsigned value => .ok value
  | .numberInteger value => .ok value.toUInt64
  | .numberFloat bits => (castFloat 64 bits).map UInt64.ofNat
  | j => .error j.notNumber

/-- `get<uint8_t>()`, which takes a boolean as well. -/
def getUInt8 : Json → Except Fault UInt8
  | .numberUnsigned value => .ok value.toUInt8
  | .numberInteger value => .ok value.toUInt64.toUInt8
  | .numberFloat bits => (castFloat 8 bits).map UInt8.ofNat
  | .boolean value => .ok (if value then 1 else 0)
  | j => .error j.notNumber

/-- `get<bool>()` -/
def getBool : Json → Except Fault Bool
  | .boolean value => .ok value
  | j => .error (.threw (.jsonTypeError
      ("[json.exception.type_error.302] type must be boolean, but is " ++ j.typeName)))

theorem toNat_toUInt64 (value : Int64) : (value.toUInt64.toNat : Int) = value.toInt % 2 ^ 64 := by
  have hcond := BitVec.toInt_eq_toNat_cond value.toBitVec
  have hint : value.toBitVec.toInt = value.toInt := rfl
  have hnat : value.toBitVec.toNat = value.toUInt64.toNat := rfl
  have hlt := value.toUInt64.toNat_lt
  rw [hint, hnat] at hcond
  split at hcond <;> omega

theorem getSize_integer {j : Json} {v : Int} (h : j.integerValue? = some v) :
    ∃ size, j.getSize = .ok size ∧ (size.toNat : Int) = v % 2 ^ 64 := by
  cases j with
  | numberInteger value =>
    obtain rfl : value.toInt = v := Option.some.inj h
    exact ⟨value.toUInt64, rfl, toNat_toUInt64 value⟩
  | numberUnsigned value =>
    obtain rfl : (value.toNat : Int) = v := Option.some.inj h
    have hlt := value.toNat_lt
    exact ⟨value, rfl, by omega⟩
  | _ => cases h

theorem getUInt8_integer {j : Json} {v : Int} (h : j.integerValue? = some v) :
    ∃ byte, j.getUInt8 = .ok byte ∧ (byte.toNat : Int) = v % 2 ^ 8 := by
  cases j with
  | numberInteger value =>
    obtain rfl : value.toInt = v := Option.some.inj h
    have hwide := toNat_toUInt64 value
    refine ⟨value.toUInt64.toUInt8, rfl, ?_⟩
    rw [UInt64.toNat_toUInt8]
    omega
  | numberUnsigned value =>
    obtain rfl : (value.toNat : Int) = v := Option.some.inj h
    refine ⟨value.toUInt8, rfl, ?_⟩
    rw [UInt64.toNat_toUInt8]
    omega
  | _ => cases h

end Json

/-! ### The driver -/

/-- `mock_inputs_`; its size never changes. -/
structure MockDriver where
  mockInputs : Fin inputSize → UInt8 := fun _ => 0

namespace MockDriver

def setMockInputBit (driver : MockDriver) (byteOffset : UInt64) (bitIndex : UInt8) (value : Bool) :
    MockDriver :=
  if h : byteOffset.toNat ≥ inputSize ∨ bitIndex > 7 then driver
  else
    let i : Fin inputSize := ⟨byteOffset.toNat, Nat.not_le.mp fun hge => h (.inl hge)⟩
    let byte := driver.mockInputs i
    { mockInputs := Function.update driver.mockInputs i
        (if value then ByteBits.orShifted byte bitIndex else ByteBits.andNotShifted byte bitIndex) }

def inputBit (driver : MockDriver) (byte : Fin inputSize) (bit : Fin 8) : Bool :=
  ByteBits.bit (driver.mockInputs byte) bit

theorem inputBit_set (driver : MockDriver) {byteOffset : UInt64} {bitIndex : UInt8}
    (hbyte : byteOffset.toNat < inputSize) (hbit : bitIndex ≤ 7) (value : Bool)
    (byte : Fin inputSize) (bit : Fin 8) :
    (driver.setMockInputBit byteOffset bitIndex value).inputBit byte bit =
      if byte.val = byteOffset.toNat ∧ bit.val = bitIndex.toNat then value
      else driver.inputBit byte bit := by
  have hin : ¬ (byteOffset.toNat ≥ inputSize ∨ bitIndex > 7) := fun h =>
    h.elim (Nat.not_le.mpr hbyte) (UInt8.not_lt.mpr hbit)
  rw [setMockInputBit, dif_neg hin, inputBit]
  simp only [Function.update_apply]
  by_cases hi : byte.val = byteOffset.toNat
  · obtain rfl : byte = ⟨byteOffset.toNat, hbyte⟩ := Fin.ext hi
    cases value
    · simp [ByteBits.andNotShifted_eq _ hbit, ByteBits.bit_clear _ hbit bit.isLt, inputBit]
    · simp [ByteBits.orShifted_eq _ hbit, ByteBits.bit_set _ hbit, inputBit]
  · rw [if_neg fun h => hi (congrArg Fin.val h), if_neg fun h => hi h.1]
    rfl

theorem setMockInputBit_out (driver : MockDriver) {byteOffset : UInt64} {bitIndex : UInt8}
    (h : byteOffset.toNat ≥ inputSize ∨ bitIndex > 7) (value : Bool) :
    driver.setMockInputBit byteOffset bitIndex value = driver :=
  dif_pos h

end MockDriver

/-! ### The handler -/

def Exception.jsonWhat? : Exception → Option String
  | .jsonParseError what | .jsonOutOfRange what | .jsonTypeError what => some what
  | _ => none

def throwing {α : Type} (x : Except Exception α) : Except Fault α := x.mapError .threw

def inputArguments (lib : JsonLibrary) (body : String) : Except Fault (UInt64 × UInt8 × Bool) := do
  let doc ← throwing ((lib.parse body).mapError ParseFailure.exception)
  let byte ← (← throwing (doc.atKey "byte")).getSize
  let bit ← (← throwing (doc.atKey "bit")).getUInt8
  let value ← (← throwing (doc.atKey "value")).getBool
  return (byte, bit, value)

def inputError (lib : JsonLibrary) (what : String) : EStateM Fault MockDriver Response := fun driver =>
  match lib.dump (.object [("error", .string ("invalid input request: " ++ what))]) with
  | .ok text => .ok ⟨400, text, "application/json"⟩ driver
  | .error what => .error (.threw (.jsonTypeError what)) driver

def postInput (lib : JsonLibrary) (body : String) : EStateM Fault MockDriver Response := fun driver =>
  match inputArguments lib body with
  | .ok (byte, bit, value) =>
    .ok ⟨200, "\x7b\"ok\":true\x7d", "application/json"⟩ (driver.setMockInputBit byte bit value)
  | .error .undefinedBehaviour => .error .undefinedBehaviour driver
  | .error (.threw e) =>
    match e.jsonWhat? with
    | some what => inputError lib what driver
    | none => .error (.threw e) driver

/-! ### What a request with integers does -/

/-- The request named bit `bit` of byte `byte`: that bit is set and no other
one changes, or none changes where there is no such bit. -/
def SetsExactly (before after : MockDriver) (byte bit : Int) (value : Bool) : Prop :=
  ∀ (i : Fin inputSize) (j : Fin 8), after.inputBit i j =
    if (i.val : Int) = byte ∧ (j.val : Int) = bit then value else before.inputBit i j

/-- The bit number is none of a byte, but the one it is cut to is, and that
bit does not hold the value yet. -/
def MovesAnother (driver : MockDriver) (byte bit : Int) (value : Bool) : Prop :=
  ¬ (0 ≤ bit ∧ bit ≤ 7) ∧ ∃ (i : Fin inputSize) (j : Fin 8), (i.val : Int) = byte ∧
    (j.val : Int) = bit % 2 ^ 8 ∧ driver.inputBit i j ≠ value

theorem setsExactly_guarded (driver : MockDriver) {byteOffset : UInt64} {bitIndex : UInt8}
    {byte bit : Int} (value : Bool) (hbyte : (byteOffset.toNat : Int) = byte)
    (hbit : (bitIndex.toNat : Int) = bit % 2 ^ 8) (hlt : byteOffset.toNat < inputSize)
    (hle : bitIndex ≤ 7) :
    SetsExactly driver (driver.setMockInputBit byteOffset bitIndex value) byte bit value ↔
      ¬ MovesAnother driver byte bit value := by
  have h8 : bitIndex.toNat < 8 := Nat.lt_succ_of_le (UInt8.le_iff_toNat_le.mp hle)
  let i : Fin inputSize := ⟨byteOffset.toNat, hlt⟩
  let j : Fin 8 := ⟨bitIndex.toNat, h8⟩
  by_cases hrange : 0 ≤ bit ∧ bit ≤ 7
  · refine ⟨fun _ hmoves => hmoves.1 hrange, fun _ i' j' => ?_⟩
    have hiff : i'.val = byteOffset.toNat ∧ j'.val = bitIndex.toNat ↔
        (i'.val : Int) = byte ∧ (j'.val : Int) = bit := by omega
    rw [driver.inputBit_set hlt hle]
    simp only [hiff]
  · constructor
    · rintro hset ⟨_, i', j', hi', hj', hne⟩
      have hmoved := hset i' j'
      have hnot : ¬ ((i'.val : Int) = byte ∧ (j'.val : Int) = bit) := by omega
      rw [driver.inputBit_set hlt hle, if_pos (by omega), if_neg hnot] at hmoved
      exact hne hmoved.symm
    · intro hmoves i' j'
      have hnot : ¬ ((i'.val : Int) = byte ∧ (j'.val : Int) = bit) := by omega
      rw [driver.inputBit_set hlt hle, if_neg hnot]
      by_cases hhere : i'.val = byteOffset.toNat ∧ j'.val = bitIndex.toNat
      · rw [if_pos hhere]
        by_contra hne
        exact hmoves ⟨hrange, i', j', by omega, by omega, fun h => hne h.symm⟩
      · rw [if_neg hhere]

theorem setsExactly_iff (driver : MockDriver) {byteOffset : UInt64} {bitIndex : UInt8}
    {byte bit : Int} (value : Bool) (hbyte : (byteOffset.toNat : Int) = byte % 2 ^ 64)
    (hmin : -2 ^ 63 ≤ byte) (hmax : byte < 2 ^ 64) (hbit : (bitIndex.toNat : Int) = bit % 2 ^ 8) :
    SetsExactly driver (driver.setMockInputBit byteOffset bitIndex value) byte bit value ↔
      ¬ MovesAnother driver byte bit value := by
  by_cases hguard : byteOffset.toNat ≥ inputSize ∨ bitIndex > 7
  · -- no bit of the driver has this number, so nothing moves and nothing had to
    have hsmall : byteOffset.toNat ≥ inputSize ∨ 7 < bitIndex.toNat := by
      simpa [UInt8.lt_iff_toNat_lt] using hguard
    rw [driver.setMockInputBit_out hguard]
    constructor
    · rintro _ ⟨_, i, j, hi, hj, _⟩
      have hlt := i.isLt
      omega
    · intro _ i j
      have hlt := i.isLt
      have hj := j.isLt
      rw [if_neg (by omega)]
  · have hlt : byteOffset.toNat < inputSize := Nat.not_le.mp fun hge => hguard (.inl hge)
    have hle : bitIndex ≤ 7 := UInt8.not_lt.mp fun h => hguard (.inr h)
    have hlt' : byteOffset.toNat < 512 := hlt
    exact setsExactly_guarded driver value (by omega) hbit hlt hle

theorem integerValue?_bounds {j : Json} {v : Int} (h : j.integerValue? = some v) :
    -2 ^ 63 ≤ v ∧ v < 2 ^ 64 := by
  cases j with
  | numberInteger value =>
    obtain rfl : value.toInt = v := Option.some.inj h
    have hlt := value.toInt_lt
    have hle := value.le_toInt
    omega
  | numberUnsigned value =>
    obtain rfl : (value.toNat : Int) = v := Option.some.inj h
    have hlt := value.toNat_lt
    omega
  | _ => cases h

/-- A body with two integers and a boolean is answered with 200, and it moves
exactly the bit that it names unless its bit number wraps onto another one. -/
theorem postInput_setsExactly (lib : JsonLibrary) (body : String) (driver : MockDriver)
    {doc jbyte jbit : Json} {byte bit : Int} {value : Bool} (hparse : lib.parse body = .ok doc)
    (hjbyte : doc.field? "byte" = some jbyte) (hjbit : doc.field? "bit" = some jbit)
    (hvalue : doc.field? "value" = some (.boolean value)) (hbyte : jbyte.integerValue? = some byte)
    (hbit : jbit.integerValue? = some bit) :
    ∃ driver', postInput lib body driver =
        .ok ⟨200, "\x7b\"ok\":true\x7d", "application/json"⟩ driver' ∧
      (SetsExactly driver driver' byte bit value ↔ ¬ MovesAnother driver byte bit value) := by
  obtain ⟨byteOffset, hoffset, hmod⟩ := Json.getSize_integer hbyte
  obtain ⟨bitIndex, hindex, hmod'⟩ := Json.getUInt8_integer hbit
  obtain ⟨hmin, hmax⟩ := integerValue?_bounds hbyte
  have hargs : inputArguments lib body = .ok (byteOffset, bitIndex, value) := by
    simp only [inputArguments, hparse, throwing, Except.mapError, Json.atKey_of_field? hjbyte,
      Json.atKey_of_field? hjbit, Json.atKey_of_field? hvalue, bind, Except.bind, hoffset, hindex]
    rfl
  refine ⟨driver.setMockInputBit byteOffset bitIndex value, ?_,
    setsExactly_iff driver value hmod hmin hmax hmod'⟩
  rw [postInput, hargs]

def inputDocument (byte bit : UInt64) (value : Bool) : Json :=
  .object [("bit", .numberUnsigned bit), ("byte", .numberUnsigned byte), ("value", .boolean value)]

theorem postInput_setsExactly_lastBit :
    ∃ driver', postInput (JsonLibrary.plain [inputDocument 0 7 true])
        "\x7b\"bit\":7,\"byte\":0,\"value\":true\x7d" {} =
        .ok ⟨200, "\x7b\"ok\":true\x7d", "application/json"⟩ driver' ∧
      (SetsExactly {} driver' 0 7 true ↔ ¬ MovesAnother {} 0 7 true) :=
  @postInput_setsExactly _ _ {} (inputDocument 0 7 true) _ _ 0 7 true rfl rfl rfl rfl rfl rfl

/-- Bit number 256 is cut to 0, and bit 0 of the byte is set. -/
theorem postInput_wrappedBit :
    ∃ driver', postInput (JsonLibrary.plain [inputDocument 0 256 true])
        "\x7b\"bit\":256,\"byte\":0,\"value\":true\x7d" {} =
        .ok ⟨200, "\x7b\"ok\":true\x7d", "application/json"⟩ driver' ∧
      ¬ SetsExactly {} driver' 0 256 true := by
  refine ⟨({} : MockDriver).setMockInputBit 0 0 true, rfl, fun hset => ?_⟩
  have hbit := hset 0 0
  rw [MockDriver.inputBit_set _ (by decide) (by decide)] at hbit
  exact absurd hbit (by decide)

end Openaslc
