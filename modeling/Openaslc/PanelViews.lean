import Openaslc.Delay
import Openaslc.OperatorPanel

/-! What the pages draw of the inputs and the outputs, and how late. -/

namespace Openaslc

open Delay WebPage

namespace OperatorPanel

variable {ι : Type}

/-! ### Inputs and outputs on their way to a page -/

def inputRow (byte : Nat) (bytes : List UInt8) : List Arc := byteArcs inputTop byte (bytes.getD byte 0)

def outputArcs (bytes : List UInt8) : List Arc := bytesArcs outputTop bytes

def drawnInputs (page : ι) (s : OperatorPanel ι) : List Arc := drawArea (s.lastFrame page) "I" inputTop

def drawnRow (page : ι) (byte : Nat) (s : OperatorPanel ι) : List Arc :=
  drawRow (s.lastFrame page) "I" inputTop byte

def drawnOutputs (page : ι) (s : OperatorPanel ι) : List Arc := drawArea (s.lastFrame page) "Q" outputTop

def driverRow (byte : Nat) (s : OperatorPanel ι) : List Arc :=
  inputRow byte (List.ofFn s.driver.mockInputs)

def imageArcs (s : OperatorPanel ι) : List Arc := outputArcs (areaSnapshot s.image .output)

/-- A row of inputs in the messages, in the copied bytes and in the image. -/
def rowsInTransit (page : ι) (byte : Nat) (s : OperatorPanel ι) : List (List Arc) :=
  (s.underway page).map (fun message => drawRow (some message) "I" inputTop byte) ++
    (s.copied page).toList.map (inputRow byte) ++ [inputRow byte (areaSnapshot s.image .input)]

def outputsInTransit (page : ι) (s : OperatorPanel ι) : List (List Arc) :=
  (s.underway page).map fun message => drawArea (some message) "Q" outputTop

theorem areaSnapshot_written {r : Rule} (hr : r.Valid) (mem : MemoryMap) :
    areaSnapshot (r.written mem) .input = areaSnapshot mem .input := by
  obtain ⟨a, ha, harea⟩ := hr.2
  rw [Rule.written_eq ha, areaSnapshot, areaSnapshot, MemoryMap.setBitAt,
    MemoryMap.getAreaPtr_setByte_ne _ (Ne.symm harea)]

theorem getD_ofFn_update (f : Fin inputSize → UInt8) (i : Fin inputSize) (value : UInt8) (byte : Nat) :
    (List.ofFn (Function.update f i value)).getD byte 0 =
      if byte = i.val then value else (List.ofFn f).getD byte 0 := by
  simp only [List.getD_eq_getElem?_getD, List.getElem?_ofFn]
  by_cases hi : byte = i.val
  · subst hi
    simp
  · rw [if_neg hi]
    by_cases hbyte : byte < inputSize
    · have hne : (⟨byte, hbyte⟩ : Fin inputSize) ≠ i := fun h => hi (congrArg Fin.val h)
      rw [dif_pos hbyte, dif_pos hbyte, Function.update_of_ne hne]
    · rw [dif_neg hbyte, dif_neg hbyte]

theorem inputRow_latchedByte (mem : MemoryMap) (inputs : Fin inputSize → UInt8) (i : Fin inputSize)
    (byte : Nat) : inputRow byte (areaSnapshot (latchedByte mem inputs i) .input) =
      if byte = i.val then inputRow byte (List.ofFn inputs)
      else inputRow byte (areaSnapshot mem .input) := by
  have hset := getD_ofFn_update mem.inputArea i (inputs i) byte
  have hmem : areaSnapshot (latchedByte mem inputs i) .input =
      List.ofFn (Function.update mem.inputArea i (inputs i)) := rfl
  have hold : areaSnapshot mem .input = List.ofFn mem.inputArea := rfl
  rw [inputRow, inputRow, inputRow, hmem, hset, hold]
  by_cases hi : byte = i.val
  · have hbyte : (List.ofFn inputs).getD i.val 0 = inputs i := by
      rw [List.getD_eq_getElem?_getD, List.getElem?_ofFn, dif_pos i.isLt, Option.getD_some]
    rw [if_pos hi, if_pos hi, hi, hbyte]
  · rw [if_neg hi, if_neg hi]

variable {s t : OperatorPanel ι}

theorem rows_renewed {page : ι} {byte : Nat} (hunderway : t.underway page = s.underway page)
    (hcopied : t.copied page = s.copied page) (hframe : t.lastFrame page = s.lastFrame page)
    (himage : inputRow byte (areaSnapshot t.image .input) = inputRow byte (areaSnapshot s.image .input)) :
    Passes (drawnRow page byte s) (rowsInTransit page byte s) (driverRow byte s)
      (drawnRow page byte t) (rowsInTransit page byte t) (driverRow byte t) := by
  have hdrawn : drawnRow page byte t = drawnRow page byte s := by rw [drawnRow, hframe, drawnRow]
  have htransit : rowsInTransit page byte t = rowsInTransit page byte s := by
    rw [rowsInTransit, hunderway, hcopied, himage, rowsInTransit]
  rw [hdrawn, htransit]
  exact .renewed _ _ _ _

theorem outputs_renewed {page : ι} (hunderway : t.underway page = s.underway page)
    (hframe : t.lastFrame page = s.lastFrame page) :
    Passes (drawnOutputs page s) (outputsInTransit page s) (imageArcs s) (drawnOutputs page t)
      (outputsInTransit page t) (imageArcs t) := by
  have hdrawn : drawnOutputs page t = drawnOutputs page s := by rw [drawnOutputs, hframe, drawnOutputs]
  have htransit : outputsInTransit page t = outputsInTransit page s := by
    rw [outputsInTransit, hunderway, outputsInTransit]
  rw [hdrawn, htransit]
  exact .renewed _ _ _ _

variable [DecidableEq ι] {lib : JsonLibrary}

/-! ### What a page draws -/

theorem passes_rows (page : ι) (byte : Nat) {ev : PanelEvent ι} (h : step lib s ev = some t) :
    Passes (drawnRow page byte s) (rowsInTransit page byte s) (driverRow byte s)
      (drawnRow page byte t) (rowsInTransit page byte t) (driverRow byte t) := by
  have hcase := step_case h
  cases hcase with
  | latchByte i rest =>
    have himage := inputRow_latchedByte s.image s.driver.mockInputs i byte
    have hsource : inputRow byte (List.ofFn s.driver.mockInputs) = driverRow byte s := rfl
    by_cases hbyte : byte = i.val
    · refine .moved _ _ ?_
      rw [if_pos hbyte, hsource] at himage
      simp only [rowsInTransit, himage]
      generalize driverRow byte s = source
      rw [List.append_assoc, List.append_assoc, List.append_assoc]
      -- the byte that the image had before is given up
      refine (Moves.of_sublist ?_).trans (.again _ [] source)
      simp
    · rw [if_neg hbyte] at himage
      exact rows_renewed rfl rfl rfl himage
  | rule r hr =>
    refine rows_renewed rfl rfl rfl ?_
    rw [areaSnapshot_written hr]
  | copyInputs other =>
    by_cases hpage : page = other
    · subst hpage
      refine .moved _ _ ?_
      let messages := (s.underway page).map fun message => drawRow (some message) "I" inputTop byte
      have hdropped : Moves (rowsInTransit page byte s ++ [driverRow byte s])
          (messages ++ inputRow byte (areaSnapshot s.image .input) :: [driverRow byte s]) :=
        .of_sublist (by simp [rowsInTransit, messages])
      have hagain := Moves.again messages [driverRow byte s] (inputRow byte (areaSnapshot s.image .input))
      have htransit : rowsInTransit page byte { s with
          copied := Function.update s.copied page (some (areaSnapshot s.image .input)) } =
          messages ++ [inputRow byte (areaSnapshot s.image .input),
            inputRow byte (areaSnapshot s.image .input)] := by
        simp [rowsInTransit, messages]
      rw [htransit, List.append_assoc]
      exact hdropped.trans hagain
    · refine rows_renewed rfl ?_ rfl rfl
      exact Function.update_of_ne hpage _ _
  | sendMessage other sequence input _ hcopied =>
    by_cases hpage : page = other
    · subst hpage
      have hdrawn : drawRow (some (telemetryMessage sequence input (areaSnapshot s.image .output)))
          "I" inputTop byte = inputRow byte input := drawRow_array rfl inputTop byte
      have htransit : rowsInTransit page byte { s with
          copied := Function.update s.copied page none
          underway := Function.update s.underway page
            (s.underway page ++ [telemetryMessage sequence input (areaSnapshot s.image .output)]) } =
          rowsInTransit page byte s := by
        simp [rowsInTransit, hcopied, hdrawn]
      rw [htransit]
      exact .stays _ _ _
    · refine rows_renewed ?_ ?_ rfl rfl
      · exact Function.update_of_ne hpage _ _
      · exact Function.update_of_ne hpage _ _
  | onMessage other message rest hunderway =>
    by_cases hpage : page = other
    · subst hpage
      have htransit : rowsInTransit page byte s = drawRow (some message) "I" inputTop byte ::
          rowsInTransit page byte { s with
            underway := Function.update s.underway page rest
            lastFrame := Function.update s.lastFrame page (some message) } := by
        simp [rowsInTransit, hunderway]
      have hdrawn : drawnRow page byte { s with
            underway := Function.update s.underway page rest
            lastFrame := Function.update s.lastFrame page (some message) } =
          drawRow (some message) "I" inputTop byte := by
        simp [drawnRow]
      rw [htransit, hdrawn]
      exact .showed _ _ _ _
    · refine rows_renewed ?_ rfl ?_ rfl
      · exact Function.update_of_ne hpage _ _
      · exact Function.update_of_ne hpage _ _
  | reconnect other =>
    by_cases hpage : page = other
    · subst hpage
      refine .moved _ _ (Moves.of_sublist ?_)
      simp [rowsInTransit, reconnect]
    · refine rows_renewed ?_ ?_ rfl rfl
      · exact Function.update_of_ne hpage _ _
      · exact Function.update_of_ne hpage _ _
  | _ => exact rows_renewed rfl rfl rfl rfl

theorem passes_outputs (page : ι) {ev : PanelEvent ι} (h : step lib s ev = some t) :
    Passes (drawnOutputs page s) (outputsInTransit page s) (imageArcs s) (drawnOutputs page t)
      (outputsInTransit page t) (imageArcs t) := by
  have hcase := step_case h
  cases hcase with
  | sendMessage other sequence input =>
    by_cases hpage : page = other
    · subst hpage
      have hdrawn : drawArea (some (telemetryMessage sequence input (areaSnapshot s.image .output)))
          "Q" outputTop = imageArcs s := drawArea_array rfl outputTop
      have htransit : outputsInTransit page { s with
          copied := Function.update s.copied page none
          underway := Function.update s.underway page
            (s.underway page ++ [telemetryMessage sequence input (areaSnapshot s.image .output)]) } =
          outputsInTransit page s ++ [imageArcs s] := by
        simp [outputsInTransit, hdrawn]
      rw [htransit]
      refine .moved _ _ ?_
      rw [List.append_assoc]
      exact .again (outputsInTransit page s) [] (imageArcs s)
    · refine outputs_renewed ?_ rfl
      exact Function.update_of_ne hpage _ _
  | onMessage other message rest hunderway =>
    by_cases hpage : page = other
    · subst hpage
      have htransit : outputsInTransit page s = drawArea (some message) "Q" outputTop ::
          outputsInTransit page { s with
            underway := Function.update s.underway page rest
            lastFrame := Function.update s.lastFrame page (some message) } := by
        simp [outputsInTransit, hunderway]
      have hdrawn : drawnOutputs page { s with
            underway := Function.update s.underway page rest
            lastFrame := Function.update s.lastFrame page (some message) } =
          drawArea (some message) "Q" outputTop := by
        simp [drawnOutputs]
      rw [htransit, hdrawn]
      exact .showed _ _ _ _
    · refine outputs_renewed ?_ ?_
      · exact Function.update_of_ne hpage _ _
      · exact Function.update_of_ne hpage _ _
  | reconnect other =>
    by_cases hpage : page = other
    · subst hpage
      refine .moved _ _ (Moves.of_sublist ?_)
      simp [outputsInTransit, reconnect]
    · refine outputs_renewed ?_ rfl
      exact Function.update_of_ne hpage _ _
  | _ => exact outputs_renewed rfl rfl

theorem drawn_start (member : String) (top : ℚ) (n : Nat) :
    drawArea none member top = bytesArcs top (List.ofFn fun _ : Fin n => 0) := by
  rw [List.ofFn_const, drawArea_none]

theorem row_start (byte n : Nat) :
    drawRow none "I" inputTop byte = inputRow byte (List.ofFn fun _ : Fin n => 0) := by
  rw [drawRow_none, inputRow, List.ofFn_const, List.getD_eq_getElem?_getD, List.getElem?_replicate]
  split <;> rfl

/-- Whatever the pages, their connections, the calls that change inputs and the
scan do, and in whatever order: each row of inputs that a page draws is that byte
of the driver as it once was, the outputs that it draws are those of the image as
they once were, and neither goes back to earlier ones. -/
theorem pages_show_past {events : List (PanelEvent ι)}
    (h : run lib ({} : OperatorPanel ι) events = some s) (page : ι) :
    (∀ (m : OperatorPanel ι),
      drawnInputs page m = (List.range numBytes).flatMap fun byte => drawnRow page byte m) ∧
    (∀ byte, Samples (moments (step lib) (driverRow byte) {} events s)
        (moments (step lib) (drawnRow page byte) {} events s)) ∧
      Samples (moments (step lib) imageArcs {} events s)
        (moments (step lib) (drawnOutputs page) {} events s) := by
  refine ⟨fun _ => rfl, fun byte => ?_, ?_⟩
  · refine samples_moments ?_ (fun _ _ _ hstep => passes_rows page byte hstep) h
    intro arcs harcs
    rcases List.mem_cons.mp harcs with rfl | htransit
    · exact row_start byte inputSize
    · obtain rfl := List.mem_singleton.mp htransit
      rfl
  · refine samples_moments ?_ (fun _ _ _ hstep => passes_outputs page hstep) h
    intro arcs harcs
    obtain rfl := List.mem_singleton.mp harcs
    exact drawn_start "Q" outputTop outputSize

/-- A click on the first input, and the way of its bit back to the page. -/
def firstClick : List (PanelEvent Unit) :=
  [.click () 63 41, .postInput 0, .store 0] ++ (wholeRead ++
    [.copyInputs (), .sendMessage () 0, .onMessage ()])

theorem run_firstClick : ∃ s, run .reading {} firstClick = some s := by
  let clicked := ({} : OperatorPanel Unit).click () 63 41
  have hrequest : clicked.requests[0]? = some ⟨0, 0, true⟩ := by decide +kernel
  have hread := inputArguments_request reading_readsRequests (r := ⟨0, 0, true⟩) (by decide) (by decide)
  obtain ⟨w, hload⟩ : ∃ w, clicked.driver.load (UInt64.ofNat 0) (UInt64.ofNat 0).toUInt8 true = some w :=
    ⟨_, rfl⟩
  let posted : OperatorPanel Unit := { clicked with
    writes := [w]
    requests := clicked.requests.eraseIdx 0 }
  have hpost : step .reading clicked (.postInput 0) = some posted := by
    simp only [step, postInput, hrequest, hread, hload]
    rfl
  let stored : OperatorPanel Unit := { posted with
    driver := { posted.driver with toMockDriver := posted.driver.toMockDriver.store w }
    writes := [] }
  have hstore : step .reading posted (.store 0) = some stored := rfl
  let latched : OperatorPanel Unit := { stored with
    image := ConsoleDriver.latched stored.image stored.driver.mockInputs }
  have hlatched : run .reading stored wholeRead = some latched :=
    run_wholeRead rfl (stored.driver.readInputs_eq stored.image)
  let copied : OperatorPanel Unit := { latched with
    copied := Function.update latched.copied () (some (areaSnapshot latched.image .input)) }
  have hcopied : copied.copied () = some (areaSnapshot latched.image .input) := by
    simp only [copied, Function.update_self]
  have hclicks : run .reading {} [.click () 63 41, .postInput 0, .store 0] = some stored :=
    Machine.run_cons.mpr ⟨clicked, rfl, Machine.run_cons.mpr ⟨posted, hpost,
      Machine.run_singleton.mpr hstore⟩⟩
  have hcopy : step .reading latched (.copyInputs ()) = some copied := copyInputs_eq () rfl
  have hsend : step .reading copied (.sendMessage () 0) = some _ := sendMessage_eq rfl hcopied 0
  have hsent : copied.underway () = [] := rfl
  rw [firstClick]
  apply enabled_append hclicks
  apply enabled_append hlatched
  apply enabled_cons hcopy
  apply enabled_cons hsend
  simp only [run, Machine.run_singleton, step, onMessage, Function.update_self, hsent, List.nil_append]
  exact ⟨_, rfl⟩

theorem pages_show_past_firstClick : ∃ s, run .reading {} firstClick = some s ∧
    (∀ (m : OperatorPanel Unit),
      drawnInputs () m = (List.range numBytes).flatMap fun byte => drawnRow () byte m) ∧
    (∀ byte, Samples (moments (step .reading) (driverRow byte) {} firstClick s)
        (moments (step .reading) (drawnRow () byte) {} firstClick s)) ∧
      Samples (moments (step .reading) imageArcs {} firstClick s)
        (moments (step .reading) (drawnOutputs ()) {} firstClick s) := by
  obtain ⟨s, hs⟩ := run_firstClick
  exact ⟨s, hs, pages_show_past hs ()⟩

end OperatorPanel

end Openaslc
