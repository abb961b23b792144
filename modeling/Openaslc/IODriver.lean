import Openaslc.ChangeLog
import Openaslc.GraphicText
import Openaslc.InputHandler
import Openaslc.MemoryStore
import Openaslc.Separator
import Openaslc.TelemetryFrames

/-! Drivers of the engine, and the mock driver with the changes of %Q that it
prints: what its console tells of the outputs. -/

namespace Openaslc

/-- A class of drivers: what the virtual functions, and the other public
functions `μ`, do to a driver. -/
class IIODriver (δ : Type) (μ : outParam Type) where
  initializeDriver : δ → Bool × δ
  readInputs : δ → MemoryMap → Except Fault (δ × MemoryMap)
  writeOutputs : δ → MemoryMap → Except Fault δ
  method : μ → δ → δ

open ChangeLog

/-! ### The printed lines -/

/-- `std::hex` of an `int` that is not negative. -/
def hexText (n : Nat) : String := String.ofList (Nat.toDigits 16 n)

def outputChange : String := "[MockDriver Output Change] %Q["

def outputChangeLine (c : Change UInt8) : String :=
  outputChange ++ toString c.index ++ "]: 0x" ++ hexText c.previous.toNat ++ " -> 0x" ++
    hexText c.current.toNat

theorem toDigits_inj {b m n : Nat} (hb : 1 < b) (hb' : b ≤ 16)
    (h : Nat.toDigits b m = Nat.toDigits b n) : m = n := by
  have hchar : ∀ i < 16, ∀ j < 16, i.digitChar = j.digitChar → i = j := by decide
  have hmod : ∀ k, k % b < 16 := fun k => Nat.lt_of_lt_of_le (Nat.mod_lt k (by omega)) hb'
  induction m using Nat.strongRecOn generalizing n with
  | ind m ih =>
    have hlen := congrArg List.length h
    by_cases hm : m < b
    · by_cases hn : n < b
      · rw [Nat.toDigits_of_lt_base hm, Nat.toDigits_of_lt_base hn] at h
        exact hchar m (by omega) n (by omega) (List.singleton_inj.mp h)
      · rw [Nat.toDigits_of_lt_base hm, Nat.toDigits_of_base_le hb (Nat.not_lt.mp hn)] at hlen
        have hpos : 0 < (Nat.toDigits b (n / b)).length := Nat.length_toDigits_pos
        simp only [List.length_append, List.length_singleton] at hlen
        omega
    · by_cases hn : n < b
      · rw [Nat.toDigits_of_lt_base hn, Nat.toDigits_of_base_le hb (Nat.not_lt.mp hm)] at hlen
        have hpos : 0 < (Nat.toDigits b (m / b)).length := Nat.length_toDigits_pos
        simp only [List.length_append, List.length_singleton] at hlen
        omega
      · rw [Nat.toDigits_of_base_le hb (Nat.not_lt.mp hm),
          Nat.toDigits_of_base_le hb (Nat.not_lt.mp hn)] at h
        obtain ⟨hquotient, hlast⟩ := List.append_inj' h rfl
        have hdiv := ih (m / b) (Nat.div_lt_self (by omega) hb) hquotient
        have hrem := hchar _ (hmod m) _ (hmod n) (List.singleton_inj.mp hlast)
        rw [← Nat.div_add_mod m b, ← Nat.div_add_mod n b, hdiv, hrem]

theorem toList_outputChangeLine (c : Change UInt8) : (outputChangeLine c).toList =
    outputChange.toList ++ (Nat.toDigits 10 c.index ++
      ']' :: ([':', ' ', '0', 'x'] ++ (Nat.toDigits 16 c.previous.toNat ++
        ' ' :: (['-', '>', ' ', '0', 'x'] ++ Nat.toDigits 16 c.current.toNat)))) := by
  have hindex : "]: 0x".toList = ']' :: [':', ' ', '0', 'x'] := by decide
  have harrow : " -> 0x".toList = ' ' :: ['-', '>', ' ', '0', 'x'] := by decide
  simp only [outputChangeLine, hexText, String.toList_append, String.toList_ofList,
    Nat.toString_eq_ofList_toDigits, List.append_assoc, hindex, harrow, List.cons_append]

theorem outputChangeLine_injective : Function.Injective outputChangeLine := by
  intro c d h
  have hnone : ∀ k, ']' ∉ Nat.toDigits 10 k := by
    intro k hmem
    have hdigit : (']' : Char).isDigit :=
      Nat.isDigit_of_mem_toDigits (b := 10) (by omega) (by omega) hmem
    cases hdigit
  have hblank : ∀ k, ' ' ∉ Nat.toDigits 16 k := fun k hmem =>
    absurd (graphic_toDigits (by decide) k ' ' hmem) (by decide)
  have htext := congrArg String.toList h
  rw [toList_outputChangeLine, toList_outputChangeLine] at htext
  obtain ⟨hindex, hvalues⟩ := Separator.first_field (hnone _) (hnone _)
    (List.append_cancel_left htext)
  obtain ⟨hprevious, hlast⟩ := Separator.first_field (hblank _) (hblank _)
    (List.append_cancel_left hvalues)
  have hcurrent := List.append_cancel_left hlast
  apply Change.ext
  · exact toDigits_inj (by decide) (by decide) hindex
  · exact UInt8.toNat_inj.mp (toDigits_inj (by decide) (by decide) hprevious)
  · exact UInt8.toNat_inj.mp (toDigits_inj (by decide) (by decide) hcurrent)

/-! ### The driver -/

namespace MockDriver

theorem lt_of_guard {byteOffset : UInt64} {bitIndex : UInt8}
    (h : ¬ (byteOffset.toNat ≥ inputSize ∨ bitIndex > 7)) : byteOffset.toNat < inputSize :=
  Nat.not_le.mp fun hge => h (.inl hge)

def toggleMockInputBit (driver : MockDriver) (byteOffset : UInt64) (bitIndex : UInt8) : MockDriver :=
  if h : byteOffset.toNat ≥ inputSize ∨ bitIndex > 7 then driver
  else
    let i : Fin inputSize := ⟨byteOffset.toNat, lt_of_guard h⟩
    { mockInputs := Function.update driver.mockInputs i
        (ByteBits.xorShifted (driver.mockInputs i) bitIndex) }

def inputVector (driver : MockDriver) : ByteVector :=
  ⟨List.ofFn driver.mockInputs, by rw [List.length_ofFn]; decide⟩

end MockDriver

/-- The whole of a `MockDriver`, with the lines it has printed. -/
structure ConsoleDriver extends MockDriver where
  printChanges : Bool := true
  previousOutputs : List UInt8 := List.replicate outputSize 0
  console : List String := []

/-- The public functions of `MockDriver` that no driver has to have. -/
inductive MockInput
  | setBit (byteOffset : UInt64) (bitIndex : UInt8) (value : Bool)
  | toggleBit (byteOffset : UInt64) (bitIndex : UInt8)

namespace ConsoleDriver

/-- The lines for the bytes from index `i` on; the vector of the earlier
outputs has to reach as far. -/
def changedLines (previous : List UInt8) (i : Nat) : List UInt8 → Except Fault (List String)
  | [] => .ok []
  | current :: rest =>
    match previous[i]? with
    | none => .error .undefinedBehaviour
    | some byte => do
      let lines ← changedLines previous (i + 1) rest
      return if current ≠ byte then outputChangeLine ⟨i, byte, current⟩ :: lines else lines

def initializeDriver (driver : ConsoleDriver) : Bool × ConsoleDriver :=
  (true, { driver with previousOutputs := driver.previousOutputs.map fun _ => 0 })

/-- The copy as one step: the inputs have no lock, but nothing here looks at them
one by one. -/
def readInputs (driver : ConsoleDriver) (mem : MemoryMap) : Except Fault (ConsoleDriver × MemoryMap) := do
  let (_, mem) ← (writeBytes .input 0 driver.inputVector).exec mem
  return (driver, mem)

def writeOutputs (driver : ConsoleDriver) (mem : MemoryMap) : Except Fault ConsoleDriver := do
  let (currentOutputs, _) ← (getAreaSnapshot .output).exec mem
  let lines ←
    if driver.printChanges then changedLines driver.previousOutputs 0 currentOutputs else pure []
  return { driver with previousOutputs := currentOutputs, console := driver.console ++ lines }

def method (m : MockInput) (driver : ConsoleDriver) : ConsoleDriver :=
  match m with
  | .setBit byteOffset bitIndex value =>
    { driver with toMockDriver := driver.toMockDriver.setMockInputBit byteOffset bitIndex value }
  | .toggleBit byteOffset bitIndex =>
    { driver with toMockDriver := driver.toMockDriver.toggleMockInputBit byteOffset bitIndex }

instance : IIODriver ConsoleDriver MockInput where
  initializeDriver := initializeDriver
  readInputs := readInputs
  writeOutputs := writeOutputs
  method := method

/-! ### What a call does -/

theorem changedLines_eq (pre : List UInt8) {previous current : List UInt8}
    (h : previous.length = current.length) : changedLines (pre ++ previous) pre.length current =
      .ok ((changes pre.length previous current).map outputChangeLine) := by
  induction current generalizing pre previous with
  | nil =>
    obtain rfl : previous = [] := List.eq_nil_of_length_eq_zero h
    rfl
  | cons current rest ih =>
    cases previous with
    | nil => simp at h
    | cons byte previous =>
      have hrest := ih (pre ++ [byte]) (Nat.succ.inj h)
      rw [List.append_assoc, List.length_append] at hrest
      have hbyte : (pre ++ byte :: previous)[pre.length]? = some byte := by simp
      simp only [changedLines, hbyte]
      rw [List.singleton_append, List.length_singleton] at hrest
      rw [hrest, changes]
      by_cases hc : current ≠ byte
      · rw [if_pos hc]
        simp only [bind, Except.bind, pure, Except.pure, if_pos hc, List.map_cons]
      · rw [if_neg hc]
        simp only [bind, Except.bind, pure, Except.pure, if_neg hc]

/-- Inputs latched into an image. -/
def latched (mem : MemoryMap) (inputs : Fin inputSize → UInt8) : MemoryMap :=
  { mem with inputArea := inputs }

theorem bits_latched (mem : MemoryMap) (inputs : Fin inputSize → UInt8) :
    (latched mem inputs).bits = mem.bits.writeBytes .input 0 (List.ofFn inputs) := by
  funext area i b
  rw [BitStore.writeBytes]
  cases area with
  | input =>
    rw [List.length_ofFn, Nat.sub_zero, Nat.zero_add]
    by_cases hi : i < getSize .input
    · have hin : i < inputSize := hi
      have hbyte : (List.ofFn inputs)[i]? = some (inputs ⟨i, hin⟩) := by
        rw [List.getElem?_ofFn, dif_pos hin]
      rw [if_pos ⟨rfl, Nat.zero_le i, hi⟩, MemoryMap.bits_of_lt _ hi,
        List.getD_eq_getElem?_getD, hbyte]
      rfl
    · rw [if_neg fun h => hi h.2.2, MemoryMap.bits, MemoryMap.bits, dif_neg hi, dif_neg hi]
  | output => rfl
  | memory => rfl

theorem readInputs_eq (driver : ConsoleDriver) (mem : MemoryMap) :
    driver.readInputs mem = .ok (driver, latched mem driver.mockInputs) := by
  have hlen : 0 + (List.ofFn driver.mockInputs).length ≤ getSize .input := by
    rw [List.length_ofFn, Nat.zero_add, getSize]
  obtain ⟨mem', touched, hstore, hbits⟩ := storeRange_of_le hlen mem
  have hmem : mem' = latched mem driver.mockInputs := by
    apply MemoryMap.ext_bits
    intro a
    have hbit := congrFun (congrFun (congrFun (hbits.trans (bits_latched mem driver.mockInputs).symm)
      a.area) a.byte) a.bit
    rwa [MemoryMap.bits_of_lt _ a.byte.isLt, MemoryMap.bits_of_lt _ a.byte.isLt] at hbit
  have hwrite : (writeBytes .input 0 driver.inputVector).exec mem =
      .ok ((), latched mem driver.mockInputs) := by
    rw [MemM.exec_eq_ok]
    refine ⟨[] ++ touched, ?_⟩
    have hbounds : validateBounds .input 0 driver.inputVector.size = pure () := by
      have hsize : driver.inputVector.size = 512 := by
        rw [ByteVector.size, MockDriver.inputVector, List.length_ofFn]
        rfl
      rw [hsize]
      rfl
    rw [writeBytes, hbounds, MemM.bind_ok (MemM.pure_apply () mem), ← hmem]
    simp only [MockDriver.inputVector, UInt64.toNat_zero, hstore]
  rw [readInputs, hwrite]
  rfl

theorem readInputs_inv {driver object : ConsoleDriver} {mem mem' : MemoryMap}
    (h : IIODriver.readInputs driver mem = .ok (object, mem')) :
    object = driver ∧ mem' = latched mem driver.mockInputs := by
  have hread : IIODriver.readInputs driver mem = _ := driver.readInputs_eq mem
  rw [hread] at h
  exact ⟨(congrArg Prod.fst (Except.ok.inj h)).symm, (congrArg Prod.snd (Except.ok.inj h)).symm⟩

/-- `driver'` comes from `driver` by calls that printed the changes `log`. -/
structure Printed (driver driver' : ConsoleDriver) (log : List (Change UInt8)) : Prop where
  console : driver'.console = driver.console ++ log.map outputChangeLine
  outputs : driver'.previousOutputs = replay driver.previousOutputs log
  size : driver'.previousOutputs.length = outputSize
  printChanges : driver'.printChanges = true

theorem Printed.append {driver driver' driver'' : ConsoleDriver} {log log' : List (Change UInt8)}
    (h : Printed driver driver' log) (h' : Printed driver' driver'' log') :
    Printed driver driver'' (log ++ log') := by
  refine ⟨?_, ?_, h'.size, h'.printChanges⟩
  · rw [h'.console, h.console, List.map_append, List.append_assoc]
  · rw [h'.outputs, h.outputs, replay_append]

theorem Printed.silent {driver driver' driver'' : ConsoleDriver} {log : List (Change UInt8)}
    (h : Printed driver driver' log) (hconsole : driver''.console = driver'.console)
    (houtputs : driver''.previousOutputs = driver'.previousOutputs)
    (hprint : driver''.printChanges = driver'.printChanges) : Printed driver driver'' log :=
  ⟨hconsole.trans h.console, houtputs.trans h.outputs, houtputs ▸ h.size, hprint.trans h.printChanges⟩

theorem length_areaSnapshot_output (mem : MemoryMap) :
    (areaSnapshot mem .output).length = outputSize := by
  rw [areaSnapshot, List.length_ofFn, getSize]

theorem writeOutputs_eq {driver : ConsoleDriver} (hsize : driver.previousOutputs.length = outputSize)
    (mem : MemoryMap) : driver.writeOutputs mem = .ok { driver with
      previousOutputs := areaSnapshot mem .output
      console := driver.console ++ if driver.printChanges then
        (changes 0 driver.previousOutputs (areaSnapshot mem .output)).map outputChangeLine
        else [] } := by
  have hlen : driver.previousOutputs.length = (areaSnapshot mem .output).length :=
    hsize.trans (length_areaSnapshot_output mem).symm
  have hlines : changedLines driver.previousOutputs 0 (areaSnapshot mem .output) = .ok
      ((changes 0 driver.previousOutputs (areaSnapshot mem .output)).map outputChangeLine) :=
    changedLines_eq [] hlen
  rw [writeOutputs, exec_getAreaSnapshot]
  by_cases hp : driver.printChanges
  · simp only [bind, Except.bind, pure, Except.pure, if_pos hp, hlines]
  · simp only [bind, Except.bind, pure, Except.pure, if_neg hp]

theorem writeOutputs_outputs {driver driver' : ConsoleDriver} {mem : MemoryMap}
    (hsize : driver.previousOutputs.length = outputSize) (h : driver.writeOutputs mem = .ok driver') :
    driver'.previousOutputs = areaSnapshot mem .output ∧
      driver'.printChanges = driver.printChanges := by
  rw [writeOutputs_eq hsize] at h
  generalize areaSnapshot mem .output = outputs at h ⊢
  obtain rfl := Except.ok.inj h
  exact ⟨rfl, rfl⟩

theorem writeOutputs_printed {driver driver' : ConsoleDriver} {mem : MemoryMap}
    (hsize : driver.previousOutputs.length = outputSize) (hprint : driver.printChanges = true)
    (h : driver.writeOutputs mem = .ok driver') : ∃ log, Printed driver driver' log := by
  have hlen := length_areaSnapshot_output mem
  have hreplay := replay_changes (hsize.trans hlen.symm)
  rw [writeOutputs_eq hsize, if_pos hprint] at h
  generalize areaSnapshot mem .output = outputs at h hlen hreplay
  obtain rfl := Except.ok.inj h
  exact ⟨changes 0 driver.previousOutputs outputs, rfl, hreplay.symm, hlen, hprint⟩

end ConsoleDriver

end Openaslc
