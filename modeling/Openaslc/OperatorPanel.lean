import Openaslc.IODriver
import Openaslc.Machine
import Openaslc.WebPage

/-! Pages in front of the engine: requests go to the mock driver, whose inputs no
lock protects, `read_inputs` copies them into the image byte by byte, and
messages bring the image back to the pages. -/

namespace Openaslc

open WebPage

/-! ### A call of `set_mock_input_bit`, step by step -/

/-- A call that has loaded its byte and not stored it yet. -/
structure InputWrite where
  byte : Fin inputSize
  bitIndex : UInt8
  hbit : bitIndex ≤ 7
  value : Bool
  loaded : UInt8

/-- What the call asks for. -/
def InputWrite.asked (w : InputWrite) : InputRequest := ⟨w.byte.val, w.bitIndex.toNat, w.value⟩

namespace MockDriver

theorem le_of_guard {byteOffset : UInt64} {bitIndex : UInt8}
    (h : ¬ (byteOffset.toNat ≥ inputSize ∨ bitIndex > 7)) : bitIndex ≤ 7 :=
  UInt8.not_lt.mp fun hgt => h (.inr hgt)

def load (driver : MockDriver) (byteOffset : UInt64) (bitIndex : UInt8) (value : Bool) :
    Option InputWrite :=
  if h : byteOffset.toNat ≥ inputSize ∨ bitIndex > 7 then none
  else
    let i : Fin inputSize := ⟨byteOffset.toNat, lt_of_guard h⟩
    some ⟨i, bitIndex, le_of_guard h, value, driver.mockInputs i⟩

def store (driver : MockDriver) (w : InputWrite) : MockDriver :=
  { mockInputs := Function.update driver.mockInputs w.byte
      (if w.value then ByteBits.orShifted w.loaded w.bitIndex
        else ByteBits.andNotShifted w.loaded w.bitIndex) }

/-- With nothing between its two steps, the call is `setMockInputBit`. -/
theorem setMockInputBit_eq (driver : MockDriver) (byteOffset : UInt64) (bitIndex : UInt8)
    (value : Bool) : driver.setMockInputBit byteOffset bitIndex value =
      (driver.load byteOffset bitIndex value).elim driver driver.store := by
  rw [setMockInputBit, load]
  split <;> rfl

theorem load_eq {driver : MockDriver} {byteOffset : UInt64} {bitIndex : UInt8} {value : Bool}
    {w : InputWrite} (h : driver.load byteOffset bitIndex value = some w) :
    w.byte.val = byteOffset.toNat ∧ w.bitIndex = bitIndex ∧ w.value = value ∧
      w.loaded = driver.mockInputs w.byte := by
  rw [load] at h
  split at h
  · cases h
  · obtain rfl := Option.some.inj h
    exact ⟨rfl, rfl, rfl, rfl⟩

/-- The other bits of the byte come back as they were when it was loaded. -/
theorem inputBit_store (driver : MockDriver) (w : InputWrite) (byte : Fin inputSize) (bit : Fin 8) :
    (driver.store w).inputBit byte bit =
      if byte = w.byte then
        if bit.val = w.bitIndex.toNat then w.value else ByteBits.bit w.loaded bit
      else driver.inputBit byte bit := by
  rw [inputBit, store]
  simp only [Function.update_apply]
  by_cases hi : byte = w.byte
  · rw [if_pos hi, if_pos hi]
    cases hvalue : w.value
    · simp [ByteBits.andNotShifted_eq _ w.hbit, ByteBits.bit_clear _ w.hbit bit.isLt]
    · simp [ByteBits.orShifted_eq _ w.hbit, ByteBits.bit_set _ w.hbit]
  · rw [if_neg hi, if_neg hi, inputBit]

end MockDriver

/-! ### The state -/

/-- The driver and the image of the engine, the bytes that `read_inputs` has still
to copy while it holds the lock of the image, the calls that are changing inputs,
and for each page the connection of its telemetry: the input bytes copied for the
next message, the messages on their way, and the last one received. -/
structure OperatorPanel (ι : Type) where
  driver : ConsoleDriver := {}
  image : MemoryMap := {}
  latching : Option (Finset (Fin inputSize)) := none
  writes : List InputWrite := []
  copied : ι → Option (List UInt8) := fun _ => none
  underway : ι → List Json := fun _ => []
  lastFrame : ι → Option Json := fun _ => none
  requests : List InputRequest := []

inductive PanelEvent (ι : Type)
  | beginRead
  | latchByte (i : Fin inputSize)
  | endRead
  | rule (r : Rule) (hr : r.Valid)
  | copyInputs (page : ι)
  | sendMessage (page : ι) (sequence : UInt64)
  | onMessage (page : ι)
  | reconnect (page : ι)
  | click (page : ι) (x y : ℚ)
  | postInput (i : Nat)
  | setInput (byteOffset : UInt64) (bitIndex : UInt8) (value : Bool)
  | store (k : Nat)
  | lose (i : Nat)

namespace OperatorPanel

variable {ι : Type}

variable {s t : OperatorPanel ι}

/-- The image once one byte of the inputs is copied into it. -/
def latchedByte (mem : MemoryMap) (inputs : Fin inputSize → UInt8) (i : Fin inputSize) : MemoryMap :=
  { mem with inputArea := Function.update mem.inputArea i (inputs i) }

/-! ### Steps -/

open ConsoleDriver (latched)

/-- `write_bytes` takes the lock of the image, and the inputs have none. -/
def beginRead (s : OperatorPanel ι) : Option (OperatorPanel ι) :=
  if s.latching.isSome then none else some { s with latching := some Finset.univ }

/-- `std::copy` goes through the bytes in an order of its own. -/
def latchByte (s : OperatorPanel ι) (i : Fin inputSize) : Option (OperatorPanel ι) :=
  match s.latching with
  | some rest =>
    if i ∈ rest then some { s with
      image := latchedByte s.image s.driver.mockInputs i
      latching := some (rest.erase i) }
    else none
  | none => none

def endRead (s : OperatorPanel ι) : Option (OperatorPanel ι) :=
  if s.latching = some ∅ then some { s with latching := none } else none

def execute (s : OperatorPanel ι) (r : Rule) : Option (OperatorPanel ι) :=
  if s.latching.isSome then none
  else do
    let (_, image) ← (r.execute s.image).toOption
    return { s with image }

def click (s : OperatorPanel ι) (page : ι) (x y : ℚ) : OperatorPanel ι :=
  { s with requests := s.requests ++ (WebPage.click (s.lastFrame page) x y).toList }

theorem execute_eq {r : Rule} (hr : r.Valid) (h : s.latching = none) :
    s.execute r = some { s with image := r.written s.image } := by
  rw [execute, h, Rule.execute_eq hr]
  rfl

/-- The requests need not arrive in the order of the clicks. A handler runs up
to the load of its byte. -/
def postInput (lib : JsonLibrary) (s : OperatorPanel ι) (i : Nat) : Option (OperatorPanel ι) :=
  match s.requests[i]? with
  | some request =>
    match inputArguments lib request.body with
    | .ok (byte, bit, value) => some { s with
        writes := s.writes ++ (s.driver.load byte bit value).toList
        requests := s.requests.eraseIdx i }
    | .error (.threw _) => some { s with requests := s.requests.eraseIdx i }
    | .error .undefinedBehaviour => none
  | none => none

/-- A call that comes from no page, up to the load of its byte. -/
def setInput (s : OperatorPanel ι) (byteOffset : UInt64) (bitIndex : UInt8) (value : Bool) :
    OperatorPanel ι :=
  { s with writes := s.writes ++ (s.driver.load byteOffset bitIndex value).toList }

def store (s : OperatorPanel ι) (k : Nat) : Option (OperatorPanel ι) :=
  match s.writes[k]? with
  | some w => some { s with
      driver := { s.driver with toMockDriver := s.driver.toMockDriver.store w }
      writes := s.writes.eraseIdx k }
  | none => none

def lose (s : OperatorPanel ι) (i : Nat) : Option (OperatorPanel ι) :=
  if i < s.requests.length then some { s with requests := s.requests.eraseIdx i } else none

variable [DecidableEq ι]

def copyInputs (s : OperatorPanel ι) (page : ι) : Option (OperatorPanel ι) :=
  if s.latching.isSome then none
  else do
    let (input, _) ← ((getAreaSnapshot .input).exec s.image).toOption
    return { s with copied := Function.update s.copied page (some input) }

def sendMessage (s : OperatorPanel ι) (page : ι) (sequence : UInt64) : Option (OperatorPanel ι) :=
  if s.latching.isSome then none
  else do
    let input ← s.copied page
    let (output, _) ← ((getAreaSnapshot .output).exec s.image).toOption
    return { s with
      copied := Function.update s.copied page none
      underway := Function.update s.underway page
        (s.underway page ++ [telemetryMessage sequence input output]) }

/-- `JSON.parse` gives the document back whose text was sent. -/
def onMessage (s : OperatorPanel ι) (page : ι) : Option (OperatorPanel ι) :=
  match s.underway page with
  | message :: rest => some { s with
      underway := Function.update s.underway page rest
      lastFrame := Function.update s.lastFrame page (some message) }
  | [] => none

/-- `onclose`, and the next `connect`. -/
def reconnect (s : OperatorPanel ι) (page : ι) : OperatorPanel ι :=
  { s with
    copied := Function.update s.copied page none
    underway := Function.update s.underway page [] }

def step (lib : JsonLibrary) (s : OperatorPanel ι) : PanelEvent ι → Option (OperatorPanel ι)
  | .beginRead => s.beginRead
  | .latchByte i => s.latchByte i
  | .endRead => s.endRead
  | .rule r _ => s.execute r
  | .copyInputs page => s.copyInputs page
  | .sendMessage page sequence => s.sendMessage page sequence
  | .onMessage page => s.onMessage page
  | .reconnect page => some (s.reconnect page)
  | .click page x y => some (s.click page x y)
  | .postInput i => s.postInput lib i
  | .setInput byteOffset bitIndex value => some (s.setInput byteOffset bitIndex value)
  | .store k => s.store k
  | .lose i => s.lose i

abbrev run (lib : JsonLibrary) : OperatorPanel ι → List (PanelEvent ι) → Option (OperatorPanel ι) :=
  Machine.run (step lib)

/-- The steps that are enabled. -/
inductive StepCase (lib : JsonLibrary) (s : OperatorPanel ι) : PanelEvent ι → OperatorPanel ι → Prop
  | beginRead (h : s.latching = none) : StepCase lib s .beginRead { s with latching := some Finset.univ }
  | latchByte (i : Fin inputSize) (rest : Finset (Fin inputSize)) (h : s.latching = some rest)
      (hi : i ∈ rest) : StepCase lib s (.latchByte i) { s with
        image := latchedByte s.image s.driver.mockInputs i
        latching := some (rest.erase i) }
  | endRead (h : s.latching = some ∅) : StepCase lib s .endRead { s with latching := none }
  | rule (r : Rule) (hr : r.Valid) (h : s.latching = none) :
    StepCase lib s (.rule r hr) { s with image := r.written s.image }
  | copyInputs (page : ι) (h : s.latching = none) : StepCase lib s (.copyInputs page) { s with
      copied := Function.update s.copied page (some (areaSnapshot s.image .input)) }
  | sendMessage (page : ι) (sequence : UInt64) (input : List UInt8) (h : s.latching = none)
      (hcopied : s.copied page = some input) : StepCase lib s (.sendMessage page sequence) { s with
      copied := Function.update s.copied page none
      underway := Function.update s.underway page
        (s.underway page ++ [telemetryMessage sequence input (areaSnapshot s.image .output)]) }
  | onMessage (page : ι) (message : Json) (rest : List Json) (h : s.underway page = message :: rest) :
    StepCase lib s (.onMessage page) { s with
      underway := Function.update s.underway page rest
      lastFrame := Function.update s.lastFrame page (some message) }
  | reconnect (page : ι) : StepCase lib s (.reconnect page) (s.reconnect page)
  | click (page : ι) (x y : ℚ) : StepCase lib s (.click page x y) (s.click page x y)
  | postInput (i : Nat) (request : InputRequest) (byte : UInt64) (bit : UInt8) (value : Bool)
      (hrequest : s.requests[i]? = some request)
      (hread : inputArguments lib request.body = .ok (byte, bit, value)) :
    StepCase lib s (.postInput i) { s with
      writes := s.writes ++ (s.driver.load byte bit value).toList
      requests := s.requests.eraseIdx i }
  | postUnread (i : Nat) (request : InputRequest) (e : Exception)
      (hrequest : s.requests[i]? = some request)
      (hread : inputArguments lib request.body = .error (.threw e)) :
    StepCase lib s (.postInput i) { s with requests := s.requests.eraseIdx i }
  | setInput (byteOffset : UInt64) (bitIndex : UInt8) (value : Bool) :
    StepCase lib s (.setInput byteOffset bitIndex value) (s.setInput byteOffset bitIndex value)
  | store (k : Nat) (w : InputWrite) (h : s.writes[k]? = some w) : StepCase lib s (.store k) { s with
      driver := { s.driver with toMockDriver := s.driver.toMockDriver.store w }
      writes := s.writes.eraseIdx k }
  | lose (i : Nat) (h : i < s.requests.length) :
    StepCase lib s (.lose i) { s with requests := s.requests.eraseIdx i }

variable {lib : JsonLibrary}

theorem latching_none {latching : Option (Finset (Fin inputSize))} (h : ¬ latching.isSome = true) :
    latching = none :=
  Option.not_isSome_iff_eq_none.mp h

theorem copyInputs_eq (page : ι) (h : s.latching = none) : s.copyInputs page =
    some { s with copied := Function.update s.copied page (some (areaSnapshot s.image .input)) } := by
  rw [copyInputs, exec_getAreaSnapshot, h]
  rfl

theorem sendMessage_eq {input : List UInt8} {page : ι} (h : s.latching = none)
    (hcopied : s.copied page = some input) (sequence : UInt64) :
    s.sendMessage page sequence = some { s with
      copied := Function.update s.copied page none
      underway := Function.update s.underway page
        (s.underway page ++ [telemetryMessage sequence input (areaSnapshot s.image .output)]) } := by
  rw [sendMessage, exec_getAreaSnapshot, h, hcopied]
  rfl

theorem step_case {ev : PanelEvent ι} (h : step lib s ev = some t) : StepCase lib s ev t := by
  cases ev with
  | beginRead =>
    simp only [step, beginRead] at h
    split at h
    · cases h
    · next hnone =>
      obtain rfl := Option.some.inj h
      exact .beginRead (latching_none hnone)
  | latchByte i =>
    simp only [step, latchByte] at h
    split at h
    · next rest hrest =>
      split at h
      · next hi =>
        obtain rfl := Option.some.inj h
        exact .latchByte i rest hrest hi
      · cases h
    · cases h
  | endRead =>
    simp only [step, endRead] at h
    split at h
    · next hempty =>
      obtain rfl := Option.some.inj h
      exact .endRead hempty
    · cases h
  | rule r hr =>
    have hexec : s.execute r = some t := h
    by_cases hlocked : s.latching.isSome = true
    · rw [execute, if_pos hlocked] at hexec
      cases hexec
    · have hnone := latching_none hlocked
      obtain rfl := Option.some.inj ((execute_eq hr hnone).symm.trans hexec)
      exact .rule r hr hnone
  | copyInputs page =>
    have hcopy : s.copyInputs page = some t := h
    by_cases hlocked : s.latching.isSome = true
    · rw [copyInputs, if_pos hlocked] at hcopy
      cases hcopy
    · have hnone := latching_none hlocked
      obtain rfl := Option.some.inj ((copyInputs_eq page hnone).symm.trans hcopy)
      exact .copyInputs page hnone
  | sendMessage page sequence =>
    have hsend : s.sendMessage page sequence = some t := h
    by_cases hlocked : s.latching.isSome = true
    · rw [sendMessage, if_pos hlocked] at hsend
      cases hsend
    · have hnone := latching_none hlocked
      cases hcopied : s.copied page with
      | none =>
        rw [sendMessage, if_neg hlocked, hcopied] at hsend
        cases hsend
      | some input =>
        obtain rfl := Option.some.inj ((sendMessage_eq hnone hcopied sequence).symm.trans hsend)
        exact .sendMessage page sequence input hnone hcopied
  | onMessage page =>
    simp only [step, onMessage] at h
    split at h
    · next message rest hunderway =>
      obtain rfl := Option.some.inj h
      exact .onMessage page message rest hunderway
    · cases h
  | reconnect page =>
    obtain rfl := Option.some.inj h
    exact .reconnect page
  | click page x y =>
    obtain rfl := Option.some.inj h
    exact .click page x y
  | postInput i =>
    simp only [step, postInput] at h
    split at h
    · next request hrequest =>
      split at h
      · next byte bit value hread =>
        obtain rfl := Option.some.inj h
        exact .postInput i request byte bit value hrequest hread
      · next e hread =>
        obtain rfl := Option.some.inj h
        exact .postUnread i request e hrequest hread
      · cases h
    · cases h
  | setInput byteOffset bitIndex value =>
    obtain rfl := Option.some.inj h
    exact .setInput byteOffset bitIndex value
  | store k =>
    simp only [step, store] at h
    split at h
    · next w hw =>
      obtain rfl := Option.some.inj h
      exact .store k w hw
    · cases h
  | lose i =>
    simp only [step, lose] at h
    split at h
    · next hlt =>
      obtain rfl := Option.some.inj h
      exact .lose i hlt
    · cases h

/-! ### Calls that nothing comes between -/

theorem final_inputError (lib : JsonLibrary) (what : String) (driver : MockDriver) :
    StateExcept.final (inputError lib what driver) = driver := by
  rw [inputError]
  split <;> rfl

/-- A handler whose call nothing comes between does what it does to a driver of
its own. -/
theorem postInput_alone {i : Nat} {request : InputRequest} (hrequest : s.requests[i]? = some request)
    (h : step lib s (.postInput i) = some t) : ∃ called : Option InputWrite,
      t.writes = s.writes ++ called.toList ∧ t.driver = s.driver ∧
      StateExcept.final (Openaslc.postInput lib request.body s.driver.toMockDriver) =
        called.elim s.driver.toMockDriver s.driver.toMockDriver.store := by
  have hcase := step_case h
  cases hcase with
  | postInput _ other byte bit value hother hread =>
    obtain rfl : request = other := Option.some.inj (hrequest.symm.trans hother)
    refine ⟨s.driver.load byte bit value, rfl, rfl, ?_⟩
    rw [Openaslc.postInput, hread]
    exact s.driver.setMockInputBit_eq byte bit value
  | postUnread _ other e hother hread =>
    obtain rfl : request = other := Option.some.inj (hrequest.symm.trans hother)
    refine ⟨none, (List.append_nil _).symm, rfl, ?_⟩
    rw [Openaslc.postInput, hread]
    cases hwhat : e.jsonWhat? with
    | none => simp only [hwhat, StateExcept.final, Option.elim_none]
    | some what => simp only [hwhat, final_inputError, Option.elim_none]

theorem foldl_latchedByte (inputs : Fin inputSize → UInt8) (indices : List (Fin inputSize))
    (mem : MemoryMap) : indices.foldl (fun mem i => latchedByte mem inputs i) mem =
      { mem with inputArea := fun i => if i ∈ indices then inputs i else mem.inputArea i } := by
  induction indices generalizing mem with
  | nil => simp
  | cons i rest ih =>
    rw [List.foldl_cons, ih, latchedByte]
    congr 1
    funext j
    by_cases hj : j = i
    · subst hj
      simp
    · simp [hj]

theorem run_latchByte {indices : List (Fin inputSize)} (hnodup : indices.Nodup)
    (h : s.latching = some indices.toFinset) : run lib s (indices.map .latchByte) = some { s with
      image := indices.foldl (fun mem i => latchedByte mem s.driver.mockInputs i) s.image
      latching := some ∅ } := by
  induction indices generalizing s with
  | nil =>
    rw [List.toFinset_nil] at h
    rw [List.map_nil, List.foldl_nil, ← h]
    rfl
  | cons i rest ih =>
    obtain ⟨hi, hrest⟩ := List.nodup_cons.mp hnodup
    have herase : (i :: rest).toFinset.erase i = rest.toFinset := by
      rw [List.toFinset_cons, Finset.erase_insert (mt List.mem_toFinset.mp hi)]
    have hstep : step lib s (.latchByte i) = some { s with
        image := latchedByte s.image s.driver.mockInputs i
        latching := some rest.toFinset } := by
      simp only [step, latchByte, h]
      rw [if_pos (by simp), herase]
    rw [List.map_cons, List.foldl_cons, Machine.run_cons]
    exact ⟨_, hstep, ih hrest rfl⟩

def wholeRead : List (PanelEvent ι) :=
  .beginRead :: ((List.finRange inputSize).map .latchByte ++ [.endRead])

/-- A `read_inputs` that nothing comes between latches the inputs at once. -/
theorem run_wholeRead (h : s.latching = none) {driver : ConsoleDriver} {image : MemoryMap}
    (hread : s.driver.readInputs s.image = .ok (driver, image)) :
    run lib s wholeRead = some { s with driver, image } := by
  rw [ConsoleDriver.readInputs_eq] at hread
  obtain ⟨rfl, rfl⟩ := Prod.mk.inj (Except.ok.inj hread)
  have hbegin : step lib s .beginRead = some { s with latching := some Finset.univ } := by
    simp only [step, beginRead, h]
    rfl
  have hall : (List.finRange inputSize).toFinset = Finset.univ := by
    ext i
    simp
  have hlatching : ({ s with latching := some Finset.univ } : OperatorPanel ι).latching =
      some (List.finRange inputSize).toFinset := by rw [hall]
  have hbytes : run lib _ _ = some _ := run_latchByte (List.nodup_finRange inputSize) hlatching
  refine Machine.run_cons.mpr ⟨_, hbegin, Machine.run_append.mpr ⟨_, hbytes, ?_⟩⟩
  rw [Machine.run_singleton, foldl_latchedByte]
  have hlatched : (fun i => if i ∈ List.finRange inputSize then s.driver.mockInputs i
      else s.image.inputArea i) = s.driver.mockInputs := by
    funext i
    simp
  simp only [step, endRead, hlatched, ← h]
  rfl

theorem enabled_cons {ev : PanelEvent ι} {events : List (PanelEvent ι)}
    (hstep : step lib s ev = some t) (hrest : ∃ u, run lib t events = some u) :
    ∃ u, run lib s (ev :: events) = some u :=
  hrest.imp fun _ hu => Machine.run_cons.mpr ⟨t, hstep, hu⟩

theorem enabled_append {earlier later : List (PanelEvent ι)} (hrun : run lib s earlier = some t)
    (hrest : ∃ u, run lib t later = some u) : ∃ u, run lib s (earlier ++ later) = some u :=
  hrest.imp fun _ hu => Machine.run_append.mpr ⟨t, hrun, hu⟩

end OperatorPanel

end Openaslc
