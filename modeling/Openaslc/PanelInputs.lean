import Openaslc.PanelViews

/-! Which inputs the clicks on the pages set. Calls that change one byte at once
may undo each other, as each stores the whole byte that it has loaded. -/

namespace Openaslc

open WebPage

namespace OperatorPanel

variable {ι : Type}

def sends (s : OperatorPanel ι) : PanelEvent ι → List InputRequest
  | .click page x y => (WebPage.click (s.lastFrame page) x y).toList
  | _ => []

/-- The requests that reach a handler. -/
def handles (s : OperatorPanel ι) : PanelEvent ι → List InputRequest
  | .postInput i => s.requests[i]?.toList
  | _ => []

/-- What calls from elsewhere ask for. -/
def calls (s : OperatorPanel ι) : PanelEvent ι → List InputRequest
  | .setInput byteOffset bitIndex value =>
    (s.driver.load byteOffset bitIndex value).toList.map InputWrite.asked
  | _ => []

def stores (s : OperatorPanel ι) : PanelEvent ι → List InputRequest
  | .store k => s.writes[k]?.toList.map InputWrite.asked
  | _ => []

/-- What the last of these requests for this bit says, false without one. -/
def lastSet (byte : Fin inputSize) (bit : Fin 8) (requests : List InputRequest) : Bool :=
  requests.foldl (fun value r => if byte.val = r.byte ∧ bit.val = r.bit then r.value else value) false

theorem lastSet_concat (byte : Fin inputSize) (bit : Fin 8) (requests : List InputRequest)
    (r : InputRequest) : lastSet byte bit (requests ++ [r]) =
      if byte.val = r.byte ∧ bit.val = r.bit then r.value else lastSet byte bit requests := by
  simp only [lastSet, List.foldl_append, List.foldl_cons, List.foldl_nil]

/-! ### Clicks -/

/-- A click sends exactly the request for the bit in whose cell it lies, if there
is one, and it asks for the opposite of what the page draws there. -/
theorem mem_sends_iff {s : OperatorPanel ι} {page : ι} {x y : ℚ} {r : InputRequest} :
    r ∈ s.sends (.click page x y) ↔
      InCell r.byte r.bit x y ∧ arcAt inputTop r.byte r.bit (!r.value) ∈ drawnInputs page s := by
  rw [sends, Option.mem_toList, click_eq_some_iff, drawnInputs, drawArea_eq,
    arcAt_mem_iff]
  constructor
  · rintro ⟨hbyte, hbit, hin, hvalue⟩
    exact ⟨hin, hbyte, hbit, by rw [hvalue, Bool.not_not]⟩
  · rintro ⟨hin, hbyte, hbit, hvalue⟩
    exact ⟨hbyte, hbit, hin, by rw [← hvalue, Bool.not_not]⟩

/-- On the disc of an input, where the page shows it. -/
theorem sends_disc {s : OperatorPanel ι} {page : ι} {scale x y : ℚ} {byte bit : Nat} {on : Bool}
    (hlow : 284 / 291 ≤ scale) (hhigh : scale ≤ 1)
    (hdrawn : arcAt inputTop byte bit on ∈ drawnInputs page s)
    (hcovers : (arcAt inputTop byte bit on).Covers scale x y) :
    s.sends (.click page x y) = [⟨byte, bit, !on⟩] := by
  have hbounds : byte < numBytes ∧ bit < 8 := by
    rw [drawnInputs, drawArea_eq, arcAt_mem_iff] at hdrawn
    exact ⟨hdrawn.1, hdrawn.2.1⟩
  have hmem : (⟨byte, bit, !on⟩ : InputRequest) ∈ s.sends (.click page x y) := by
    rw [mem_sends_iff, Bool.not_not]
    exact ⟨inCell_of_covers hbounds.1 hbounds.2 hlow hhigh hcovers, hdrawn⟩
  rw [sends, Option.mem_toList] at hmem
  rw [sends, hmem]
  rfl

/-! ### Where the calls come from -/

variable {s t : OperatorPanel ι}

/-- Each request so far was sent by one click, and each call was made by one
handler or from elsewhere. -/
structure Accounts (s : OperatorPanel ι) (sent handled called stored : List InputRequest) : Prop where
  requests : ∃ lost, (handled ++ (lost ++ s.requests)).Perm sent
  writes : (stored ++ s.writes.map InputWrite.asked).Perm (handled ++ called)
  bounded : ∀ r ∈ sent, r.byte < numBytes ∧ r.bit < 8

theorem Accounts.silent {sent handled called stored : List InputRequest}
    (h : Accounts s sent handled called stored) (hrequests : t.requests = s.requests)
    (hwrites : t.writes = s.writes) : Accounts t sent handled called stored :=
  ⟨hrequests ▸ h.requests, hwrites ▸ h.writes, h.bounded⟩

theorem perm_eraseIdx {α : Type} {l : List α} {i : Nat} {a : α} (h : l[i]? = some a) :
    (a :: l.eraseIdx i).Perm l := by
  obtain ⟨hlt, rfl⟩ := List.getElem?_eq_some_iff.mp h
  exact List.getElem_cons_eraseIdx_perm hlt

/-- The call of a handler asks for what the page asked. -/
theorem asked_load {lib : JsonLibrary} (hlib : lib.ReadsRequests) {r : InputRequest}
    (hbyte : r.byte < numBytes) (hbit : r.bit < 8) {byte : UInt64} {bit : UInt8} {value : Bool}
    (hread : inputArguments lib r.body = .ok (byte, bit, value)) (driver : MockDriver) :
    (driver.load byte bit value).toList.map InputWrite.asked = [r] := by
  have hargs := (inputArguments_request hlib hbyte hbit).symm.trans hread
  obtain ⟨rfl, hrest⟩ := Prod.mk.inj (Except.ok.inj hargs)
  obtain ⟨rfl, rfl⟩ := Prod.mk.inj hrest
  have hnum : r.byte < 8 := hbyte
  have hoffset : (UInt64.ofNat r.byte).toNat = r.byte := by
    rw [UInt64.toNat_ofNat', Nat.mod_eq_of_lt (by omega)]
  have hindex : (UInt64.ofNat r.bit).toUInt8.toNat = r.bit := by
    rw [UInt64.toNat_toUInt8, UInt64.toNat_ofNat', Nat.mod_eq_of_lt (by omega),
      Nat.mod_eq_of_lt (by omega)]
  have hguard : ¬ ((UInt64.ofNat r.byte).toNat ≥ inputSize ∨ (UInt64.ofNat r.bit).toUInt8 > 7) := by
    rw [hoffset, gt_iff_lt, UInt8.lt_iff_toNat_lt, hindex]
    have hsize : (8 : Nat) ≤ inputSize := by decide
    have hseven : (7 : UInt8).toNat = 7 := rfl
    omega
  rw [MockDriver.load, dif_neg hguard]
  simp only [Option.toList_some, List.map_cons, List.map_nil, InputWrite.asked, hoffset, hindex]

/-! ### What the inputs hold -/

/-- Every bit that is on, in the driver or in a byte that a call has loaded, was
turned on by a call. -/
structure TurnedOn (s : OperatorPanel ι) (stored : List InputRequest) : Prop where
  driver : ∀ (byte : Fin inputSize) (bit : Fin 8), s.driver.inputBit byte bit = true →
    ⟨byte.val, bit.val, true⟩ ∈ stored
  loaded : ∀ w ∈ s.writes, ∀ bit : Fin 8, ByteBits.bit w.loaded bit = true →
    ⟨w.byte.val, bit.val, true⟩ ∈ stored

/-- At most one call is between its load and its store of this byte. -/
def Undisturbed (byte : Fin inputSize) (s : OperatorPanel ι) : Prop :=
  s.writes.countP (·.byte = byte) ≤ 1

/-- The byte holds what the last stores to it asked, and so does what a call has
loaded of it. -/
structure Holds (byte : Fin inputSize) (s : OperatorPanel ι) (stored : List InputRequest) : Prop where
  driver : ∀ bit, s.driver.inputBit byte bit = lastSet byte bit stored
  loaded : ∀ w ∈ s.writes, w.byte = byte → w.loaded = s.driver.mockInputs byte

theorem loaded_of_mem {byteOffset : UInt64} {bitIndex : UInt8} {value : Bool} {w : InputWrite}
    (h : w ∈ (s.driver.load byteOffset bitIndex value).toList) :
    w.loaded = s.driver.mockInputs w.byte :=
  (MockDriver.load_eq (Option.mem_toList.mp h)).2.2.2

theorem TurnedOn.loads {stored : List InputRequest} (h : TurnedOn s stored) {byteOffset : UInt64}
    {bitIndex : UInt8} {value : Bool} (hdriver : t.driver = s.driver)
    (hwrites : t.writes = s.writes ++ (s.driver.load byteOffset bitIndex value).toList) :
    TurnedOn t stored := by
  refine ⟨fun byte bit hon => h.driver byte bit (hdriver ▸ hon), fun w hw bit hon => ?_⟩
  rw [hwrites] at hw
  rcases List.mem_append.mp hw with hold | hnew
  · exact h.loaded w hold bit hon
  · rw [loaded_of_mem hnew] at hon
    exact h.driver w.byte bit hon

theorem Holds.loads {byte : Fin inputSize} {stored : List InputRequest} (h : Holds byte s stored)
    {byteOffset : UInt64} {bitIndex : UInt8} {value : Bool} (hdriver : t.driver = s.driver)
    (hwrites : t.writes = s.writes ++ (s.driver.load byteOffset bitIndex value).toList) :
    Holds byte t stored := by
  refine ⟨fun bit => hdriver ▸ h.driver bit, fun w hw hbyte => ?_⟩
  rw [hdriver]
  rw [hwrites] at hw
  rcases List.mem_append.mp hw with hold | hnew
  · exact h.loaded w hold hbyte
  · rw [loaded_of_mem hnew, hbyte]

/-! ### Over a run -/

variable [DecidableEq ι] {lib : JsonLibrary}

theorem Accounts.step (hlib : lib.ReadsRequests) {sent handled called stored : List InputRequest}
    (h : Accounts s sent handled called stored) {ev : PanelEvent ι} (hstep : step lib s ev = some t) :
    Accounts t (sent ++ s.sends ev) (handled ++ s.handles ev) (called ++ s.calls ev)
      (stored ++ s.stores ev) := by
  obtain ⟨lost, hperm⟩ := h.requests
  have hcase := step_case hstep
  cases hcase with
  | click page x y =>
    simp only [handles, calls, stores, List.append_nil]
    refine ⟨⟨lost, ?_⟩, h.writes, ?_⟩
    · have hsent := hperm.append_right (s.sends (.click page x y))
      rwa [List.append_assoc, List.append_assoc] at hsent
    · intro r hr
      rcases List.mem_append.mp hr with hold | hnew
      · exact h.bounded r hold
      · rw [sends, Option.mem_toList, click_eq_some_iff] at hnew
        exact ⟨hnew.1, hnew.2.1⟩
  | postInput i request byte bit value hrequest hread =>
    have hmem : request ∈ sent := by
      apply hperm.mem_iff.mp
      simp [List.mem_of_getElem? hrequest]
    obtain ⟨hbyte, hbit⟩ := h.bounded request hmem
    have hasked := asked_load hlib hbyte hbit hread s.driver.toMockDriver
    simp only [sends, handles, calls, stores, hrequest, Option.toList_some, List.append_nil]
    refine ⟨⟨lost, ?_⟩, ?_, h.bounded⟩
    · refine List.Perm.trans ?_ hperm
      rw [List.append_assoc]
      have hmiddle : (request :: (lost ++ s.requests.eraseIdx i)).Perm
          (lost ++ request :: s.requests.eraseIdx i) := List.perm_middle.symm
      exact (hmiddle.trans ((perm_eraseIdx hrequest).append_left lost)).append_left handled
    · rw [List.map_append, hasked, ← List.append_assoc]
      have hone := h.writes.append_right [request]
      refine hone.trans ?_
      rw [List.append_assoc, List.append_assoc]
      exact (List.perm_append_comm).append_left handled
  | postUnread i request e hrequest hread =>
    -- the library reads what the pages send
    have hmem : request ∈ sent := by
      apply hperm.mem_iff.mp
      simp [List.mem_of_getElem? hrequest]
    obtain ⟨hbyte, hbit⟩ := h.bounded request hmem
    rw [inputArguments_request hlib hbyte hbit] at hread
    cases hread
  | setInput byteOffset bitIndex value =>
    simp only [sends, handles, calls, stores, List.append_nil]
    refine ⟨⟨lost, hperm⟩, ?_, h.bounded⟩
    rw [setInput, List.map_append, ← List.append_assoc, ← List.append_assoc]
    exact h.writes.append_right _
  | store k w hw =>
    simp only [sends, handles, calls, stores, hw, Option.toList_some, List.append_nil, List.map_cons,
      List.map_nil]
    refine ⟨⟨lost, hperm⟩, ?_, h.bounded⟩
    refine List.Perm.trans ?_ h.writes
    rw [List.append_assoc]
    exact ((perm_eraseIdx hw).map InputWrite.asked).append_left stored
  | lose i hlt =>
    simp only [sends, handles, calls, stores, List.append_nil]
    refine ⟨⟨lost ++ [s.requests[i]], ?_⟩, h.writes, h.bounded⟩
    refine List.Perm.trans ?_ hperm
    rw [List.append_assoc]
    exact ((perm_eraseIdx (List.getElem?_eq_getElem hlt)).append_left lost).append_left handled
  | _ =>
    simp only [sends, handles, calls, stores, List.append_nil]
    exact h.silent rfl rfl

theorem accounts_run (hlib : lib.ReadsRequests) {events : List (PanelEvent ι)}
    (h : run lib ({} : OperatorPanel ι) events = some s) :
    Accounts s (Machine.observed (OperatorPanel.step lib) sends {} events)
      (Machine.observed (OperatorPanel.step lib) handles {} events)
      (Machine.observed (OperatorPanel.step lib) calls {} events)
      (Machine.observed (OperatorPanel.step lib) stores {} events) := by
  apply Machine.run_induction (fun events s => Accounts s
    (Machine.observed (OperatorPanel.step lib) sends {} events)
    (Machine.observed (OperatorPanel.step lib) handles {} events)
    (Machine.observed (OperatorPanel.step lib) calls {} events)
    (Machine.observed (OperatorPanel.step lib) stores {} events)) _ _ h
  · exact ⟨⟨[], .refl _⟩, .refl _, fun r hr => absurd hr List.not_mem_nil⟩
  · intro events m e t hm haccounts hstep
    simp only [Machine.observed_concat hm hstep]
    exact haccounts.step hlib hstep

theorem TurnedOn.step {stored : List InputRequest} (h : TurnedOn s stored) {ev : PanelEvent ι}
    (hstep : step lib s ev = some t) : TurnedOn t (stored ++ s.stores ev) := by
  have hcase := step_case hstep
  cases hcase with
  | store k w hw =>
    have hmem := List.mem_of_getElem? hw
    have hstores : s.stores (.store k) = [w.asked] := by
      simp only [stores, hw, Option.toList_some, List.map_cons, List.map_nil]
    rw [hstores]
    refine ⟨fun byte bit hon => ?_, fun w' hw' bit hon => ?_⟩
    · rw [MockDriver.inputBit_store] at hon
      by_cases hbyte : byte = w.byte
      · rw [if_pos hbyte] at hon
        by_cases hbit : bit.val = w.bitIndex.toNat
        · rw [if_pos hbit] at hon
          apply List.mem_append_right
          rw [List.mem_singleton, InputWrite.asked, hon, hbyte, hbit]
        · rw [if_neg hbit] at hon
          rw [hbyte]
          exact List.mem_append_left _ (h.loaded w hmem bit hon)
      · rw [if_neg hbyte] at hon
        exact List.mem_append_left _ (h.driver byte bit hon)
    · exact List.mem_append_left _ (h.loaded w' (List.mem_of_mem_eraseIdx hw') bit hon)
  | postInput i request byte bit value =>
    simp only [stores, List.append_nil]
    exact h.loads rfl rfl
  | setInput byteOffset bitIndex value =>
    simp only [stores, List.append_nil]
    exact h.loads rfl rfl
  | _ =>
    simp only [stores, List.append_nil]
    exact ⟨h.driver, h.loaded⟩

theorem Holds.step {byte : Fin inputSize} {stored : List InputRequest} (h : Holds byte s stored)
    (halone : Undisturbed byte s) {ev : PanelEvent ι} (hstep : step lib s ev = some t) :
    Holds byte t (stored ++ s.stores ev) := by
  have hcase := step_case hstep
  cases hcase with
  | store k w hw =>
    have hstores : s.stores (.store k) = [w.asked] := by
      simp only [stores, hw, Option.toList_some, List.map_cons, List.map_nil]
    have hcount := (perm_eraseIdx hw).countP_eq (·.byte = byte)
    rw [hstores]
    refine ⟨fun bit => ?_, fun w' hw' hbyte' => ?_⟩
    · rw [lastSet_concat, MockDriver.inputBit_store, ← h.driver bit, InputWrite.asked]
      by_cases hbyte : byte = w.byte
      · rw [if_pos hbyte]
        by_cases hbit : bit.val = w.bitIndex.toNat
        · rw [if_pos hbit, if_pos ⟨congrArg Fin.val hbyte, hbit⟩]
        · rw [if_neg hbit, if_neg fun hboth => hbit hboth.2,
            h.loaded w (List.mem_of_getElem? hw) hbyte.symm]
          rfl
      · rw [if_neg hbyte, if_neg fun hboth => hbyte (Fin.ext hboth.1)]
    · by_cases hbyte : w.byte = byte
      · -- no other call is at this byte
        have hpos : 0 < (s.writes.eraseIdx k).countP (·.byte = byte) :=
          List.countP_pos_iff.mpr ⟨w', hw', decide_eq_true hbyte'⟩
        rw [Undisturbed, ← hcount, List.countP_cons, if_pos (decide_eq_true hbyte)] at halone
        omega
      · have hne : byte ≠ w.byte := fun heq => hbyte heq.symm
        show w'.loaded = Function.update s.driver.mockInputs w.byte _ byte
        rw [Function.update_of_ne hne]
        exact h.loaded w' (List.mem_of_mem_eraseIdx hw') hbyte'
  | postInput i request byteOffset bit value =>
    simp only [stores, List.append_nil]
    exact h.loads rfl rfl
  | setInput byteOffset bitIndex value =>
    simp only [stores, List.append_nil]
    exact h.loads rfl rfl
  | _ =>
    simp only [stores, List.append_nil]
    exact ⟨h.driver, h.loaded⟩

theorem turnedOn_run {events : List (PanelEvent ι)} (h : run lib ({} : OperatorPanel ι) events = some s) :
    TurnedOn s (Machine.observed (OperatorPanel.step lib) stores {} events) := by
  apply Machine.run_induction (fun events s => TurnedOn s
    (Machine.observed (OperatorPanel.step lib) stores {} events)) _ _ h
  · refine ⟨fun byte bit hon => ?_, fun w hw => absurd hw List.not_mem_nil⟩
    have hoff : ({} : OperatorPanel ι).driver.inputBit byte bit = false := ByteBits.bit_zero bit
    rw [hoff] at hon
    cases hon
  · intro events m e t hm hon hstep
    rw [Machine.observed_concat hm hstep]
    exact hon.step hstep

theorem holds_run {byte : Fin inputSize} {events : List (PanelEvent ι)}
    (halone : ∀ pre m, pre <+: events → run lib ({} : OperatorPanel ι) pre = some m → Undisturbed byte m)
    (h : run lib ({} : OperatorPanel ι) events = some s) :
    Holds byte s (Machine.observed (OperatorPanel.step lib) stores {} events) := by
  apply Machine.run_induction (fun es s => es <+: events → Holds byte s
    (Machine.observed (OperatorPanel.step lib) stores {} es)) _ _ h List.prefix_rfl
  · intro _
    exact ⟨fun bit => ByteBits.bit_zero bit, fun w hw => absurd hw List.not_mem_nil⟩
  · intro es m e t hm hbefore hstep hprefix
    have hearlier := (List.prefix_append es [e]).trans hprefix
    rw [Machine.observed_concat hm hstep]
    exact (hbefore hearlier).step (halone es m hearlier hm) hstep

/-- In every run of the pages, the network, the calls that change inputs and the
scan: a click sends a request exactly in the cell of an input, and so on any of
the discs where the canvas is shown at its own size or a little smaller, for the
opposite of what is drawn there; every handled request was sent by a click of its
own, and every stored call was made by a handled request of its own or from
elsewhere; an input bit that is on was turned on by a stored call; and the bits of
a byte that two calls are never at together hold what the last stored calls for
them ask. -/
theorem clicks_set_inputs (hlib : lib.ReadsRequests) {events : List (PanelEvent ι)}
    (h : run lib ({} : OperatorPanel ι) events = some s) :
    (∀ (m : OperatorPanel ι) (page : ι) (x y : ℚ) (r : InputRequest),
      r ∈ m.sends (.click page x y) ↔
        InCell r.byte r.bit x y ∧ arcAt inputTop r.byte r.bit (!r.value) ∈ drawnInputs page m) ∧
    (∀ (m : OperatorPanel ι) (page : ι) (scale x y : ℚ) (byte bit : Nat) (on : Bool),
      284 / 291 ≤ scale → scale ≤ 1 → arcAt inputTop byte bit on ∈ drawnInputs page m →
        (arcAt inputTop byte bit on).Covers scale x y → m.sends (.click page x y) = [⟨byte, bit, !on⟩]) ∧
    (Machine.observed (OperatorPanel.step lib) handles {} events).Subperm
      (Machine.observed (OperatorPanel.step lib) sends {} events) ∧
    (Machine.observed (OperatorPanel.step lib) stores {} events).Subperm
      (Machine.observed (OperatorPanel.step lib) handles {} events ++
        Machine.observed (OperatorPanel.step lib) calls {} events) ∧
    (∀ (byte : Fin inputSize) (bit : Fin 8), s.driver.inputBit byte bit = true →
      ⟨byte.val, bit.val, true⟩ ∈ Machine.observed (OperatorPanel.step lib) stores {} events) ∧
    ∀ byte, (∀ pre m, pre <+: events → run lib ({} : OperatorPanel ι) pre = some m → Undisturbed byte m) →
      ∀ bit, s.driver.inputBit byte bit =
        lastSet byte bit (Machine.observed (OperatorPanel.step lib) stores {} events) := by
  have haccounts := accounts_run hlib h
  obtain ⟨lost, hperm⟩ := haccounts.requests
  refine ⟨fun _ _ _ _ _ => mem_sends_iff, fun _ _ _ _ _ _ _ _ hlow hhigh => sends_disc hlow hhigh,
    ?_, ?_, (turnedOn_run h).driver, fun byte halone => (holds_run halone h).driver⟩
  · exact (List.sublist_append_left _ _).subperm.trans hperm.subperm
  · exact (List.sublist_append_left _ _).subperm.trans haccounts.writes.subperm

theorem clicks_set_inputs_firstClick : ∃ s, run .reading {} firstClick = some s ∧
    (Machine.observed (OperatorPanel.step .reading) handles {} firstClick).Subperm
      (Machine.observed (OperatorPanel.step .reading) sends {} firstClick) ∧
    (Machine.observed (OperatorPanel.step .reading) stores {} firstClick).Subperm
      (Machine.observed (OperatorPanel.step .reading) handles {} firstClick ++
        Machine.observed (OperatorPanel.step .reading) calls {} firstClick) ∧
    ∀ (byte : Fin inputSize) (bit : Fin 8), s.driver.inputBit byte bit = true →
      ⟨byte.val, bit.val, true⟩ ∈ Machine.observed (OperatorPanel.step .reading) stores {} firstClick := by
  obtain ⟨s, hs⟩ := run_firstClick
  obtain ⟨_, _, hhandled, hstored, hon, _⟩ := clicks_set_inputs reading_readsRequests hs
  exact ⟨s, hs, hhandled, hstored, hon⟩

end OperatorPanel

end Openaslc
