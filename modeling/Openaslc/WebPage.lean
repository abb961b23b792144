import Openaslc.InputHandler
import Openaslc.TelemetryServer

/-! The page of `app.js`: the circles that it draws for a telemetry message, and
the request that a click on it sends. -/

namespace Openaslc

namespace WebPage

def numBytes : Nat := 8
def cell : ℚ := 34
def labelW : ℚ := 46
def rowH : ℚ := 34
def areaGap : ℚ := 24
def inputTop : ℚ := 24
def outputTop : ℚ := inputTop + numBytes * rowH + areaGap

/-- What `arc` draws with radius 10 around this point, green if `on`. -/
structure Arc where
  x : ℚ
  y : ℚ
  on : Bool
  deriving DecidableEq

/-- `bytes[byteIdx] || 0` of an array of the last message, and 0 without one. -/
def byteOf (lastFrame : Option Json) (member : String) (byteIdx : Nat) : Nat :=
  match lastFrame.bind fun message => message.field? member with
  | some (.array bytes) =>
    match bytes[byteIdx]? with
    | some (.numberUnsigned value) => value.toNat
    | _ => 0
  | _ => 0

/-- One pass of the outer loop in `drawArea`. -/
def drawRow (lastFrame : Option Json) (member : String) (top : ℚ) (byteIdx : Nat) : List Arc :=
  let y := top + byteIdx * rowH + rowH / 2
  let value := byteOf lastFrame member byteIdx
  (List.range 8).map fun (bit : Nat) =>
    let x := labelW + bit * cell + cell / 2
    ⟨x, y, (value >>> bit) &&& 1 == 1⟩

def drawArea (lastFrame : Option Json) (member : String) (top : ℚ) : List Arc :=
  (List.range numBytes).flatMap (drawRow lastFrame member top)

def render (lastFrame : Option Json) : List Arc :=
  drawArea lastFrame "I" inputTop ++ drawArea lastFrame "Q" outputTop

structure InputRequest where
  byte : Nat
  bit : Nat
  value : Bool
  deriving DecidableEq

def InputRequest.body (r : InputRequest) : String :=
  "\x7b\"byte\":" ++ toString r.byte ++ ",\"bit\":" ++ toString r.bit ++ ",\"value\":" ++
    toString r.value ++ "\x7d"

/-- The request that a click sends, if any, from its distances to the left and
the top of the canvas in CSS pixels, at whatever size the canvas is shown. -/
def click (lastFrame : Option Json) (x y : ℚ) : Option InputRequest :=
  if y < inputTop ∨ y ≥ inputTop + numBytes * rowH ∨ x < labelW then none
  else
    let byteIdx := ⌊(y - inputTop) / rowH⌋
    let bit := ⌊(x - labelW) / cell⌋
    if byteIdx < 0 ∨ byteIdx ≥ numBytes ∨ bit < 0 ∨ bit > 7 then none
    else
      let currentByte := byteOf lastFrame "I" byteIdx.toNat
      let currentValue := (currentByte >>> bit.toNat) &&& 1
      some ⟨byteIdx.toNat, bit.toNat, currentValue == 0⟩

/-! ### The drawing -/

theorem shifted_bit (value bit : Nat) : ((value >>> bit) &&& 1 == 1) = value.testBit bit := by
  have hone := Nat.testBit_eq_decide_div_mod_eq (x := value) (i := bit)
  rw [hone, Nat.and_one_is_mod, Nat.shiftRight_eq_div_pow]
  rfl

theorem shifted_bit_zero (value bit : Nat) : ((value >>> bit) &&& 1 == 0) = !value.testBit bit := by
  rw [← shifted_bit, Nat.and_one_is_mod]
  have htwo : (value >>> bit) % 2 < 2 := Nat.mod_lt _ (by decide)
  generalize (value >>> bit) % 2 = r at htwo ⊢
  interval_cases r <;> rfl

def arcAt (top : ℚ) (byte bit : Nat) (on : Bool) : Arc :=
  ⟨labelW + bit * cell + cell / 2, top + byte * rowH + rowH / 2, on⟩

/-- A row of circles for these bits. -/
def rowArcs (top : ℚ) (byte : Nat) (bits : Nat → Bool) : List Arc :=
  (List.range 8).map fun bit => arcAt top byte bit (bits bit)

def areaArcs (top : ℚ) (bits : Nat → Nat → Bool) : List Arc :=
  (List.range numBytes).flatMap fun byte => rowArcs top byte (bits byte)

theorem drawRow_eq (lastFrame : Option Json) (member : String) (top : ℚ) (byte : Nat) :
    drawRow lastFrame member top byte =
      rowArcs top byte fun bit => (byteOf lastFrame member byte).testBit bit := by
  simp only [drawRow, rowArcs, arcAt, shifted_bit]

theorem drawArea_eq (lastFrame : Option Json) (member : String) (top : ℚ) :
    drawArea lastFrame member top =
      areaArcs top fun byte bit => (byteOf lastFrame member byte).testBit bit :=
  List.flatMap_congr fun byte _ => drawRow_eq lastFrame member top byte

theorem arcAt_inj {top : ℚ} {byte bit byte' bit' : Nat} {on on' : Bool}
    (h : arcAt top byte bit on = arcAt top byte' bit' on') : byte = byte' ∧ bit = bit' ∧ on = on' := by
  simp only [arcAt, Arc.mk.injEq, cell, rowH, add_left_inj, add_right_inj] at h
  obtain ⟨hx, hy, hon⟩ := h
  exact ⟨by exact_mod_cast (mul_left_injective₀ (by norm_num) hy : (byte : ℚ) = byte'),
    by exact_mod_cast (mul_left_injective₀ (by norm_num) hx : (bit : ℚ) = bit'), hon⟩

theorem arcAt_mem_iff {top : ℚ} {bits : Nat → Nat → Bool} {byte bit : Nat} {on : Bool} :
    arcAt top byte bit on ∈ areaArcs top bits ↔ byte < numBytes ∧ bit < 8 ∧ on = bits byte bit := by
  simp only [areaArcs, rowArcs, List.mem_flatMap, List.mem_map, List.mem_range]
  constructor
  · rintro ⟨byte', hbyte, bit', hbit, heq⟩
    obtain ⟨rfl, rfl, rfl⟩ := arcAt_inj heq
    exact ⟨hbyte, hbit, rfl⟩
  · rintro ⟨hbyte, hbit, rfl⟩
    exact ⟨byte, hbyte, bit, hbit, rfl⟩

/-- The circles for this byte. -/
def byteArcs (top : ℚ) (byte : Nat) (value : UInt8) : List Arc := rowArcs top byte (ByteBits.bit value)

/-- The circles for these bytes of an area. -/
def bytesArcs (top : ℚ) (bytes : List UInt8) : List Arc :=
  areaArcs top fun byte bit => ByteBits.bit (bytes.getD byte 0) bit

theorem byteOf_array {message : Json} {member : String} {bytes : List UInt8}
    (h : message.field? member = some (.array (bytes.map fun byte => .numberUnsigned byte.toUInt64)))
    (byteIdx : Nat) : byteOf (some message) member byteIdx = (bytes.getD byteIdx 0).toNat := by
  simp only [byteOf, Option.bind_some, h, List.getElem?_map, List.getD_eq_getElem?_getD]
  cases bytes[byteIdx]? with
  | none => rfl
  | some byte => simp

theorem drawRow_array {message : Json} {member : String} {bytes : List UInt8}
    (h : message.field? member = some (.array (bytes.map fun byte => .numberUnsigned byte.toUInt64)))
    (top : ℚ) (byte : Nat) :
    drawRow (some message) member top byte = byteArcs top byte (bytes.getD byte 0) := by
  rw [drawRow_eq, byteOf_array h]
  rfl

theorem drawRow_none (member : String) (top : ℚ) (byte : Nat) :
    drawRow none member top byte = byteArcs top byte 0 := by
  rw [drawRow_eq, byteArcs]
  apply congrArg
  funext bit
  exact (Nat.zero_testBit bit).trans (ByteBits.bit_zero bit).symm

theorem drawArea_array {message : Json} {member : String} {bytes : List UInt8}
    (h : message.field? member = some (.array (bytes.map fun byte => .numberUnsigned byte.toUInt64)))
    (top : ℚ) : drawArea (some message) member top = bytesArcs top bytes := by
  simp only [drawArea_eq, byteOf_array h]
  rfl

theorem drawArea_none (member : String) (top : ℚ) (n : Nat) :
    drawArea none member top = bytesArcs top (List.replicate n 0) := by
  have hzero : ∀ byte, (List.replicate n (0 : UInt8)).getD byte 0 = 0 := by
    intro byte
    rw [List.getD_eq_getElem?_getD, List.getElem?_replicate]
    split <;> rfl
  simp only [drawArea_eq, bytesArcs, hzero, ByteBits.bit_zero]
  simp [byteOf]

/-! ### The click -/

/-- The square of the cell of this bit. -/
structure InCell (byte bit : Nat) (x y : ℚ) : Prop where
  left : labelW + bit * cell ≤ x
  right : x < labelW + (bit + 1) * cell
  top : inputTop + byte * rowH ≤ y
  bottom : y < inputTop + (byte + 1) * rowH

theorem floor_div_eq_iff {origin size v : ℚ} (h : 0 < size) (k : Int) :
    ⌊(v - origin) / size⌋ = k ↔ origin + k * size ≤ v ∧ v < origin + (k + 1) * size := by
  rw [Int.floor_eq_iff, le_div_iff₀ h, div_lt_iff₀ h]
  constructor
  · rintro ⟨hlow, hhigh⟩
    exact ⟨by linarith, by linarith⟩
  · rintro ⟨hlow, hhigh⟩
    exact ⟨by linarith, by linarith⟩

theorem inCell_iff {byte bit : Nat} {x y : ℚ} : InCell byte bit x y ↔
    ⌊(y - inputTop) / rowH⌋ = (byte : Int) ∧ ⌊(x - labelW) / cell⌋ = (bit : Int) := by
  have hrow : (0 : ℚ) < rowH := by norm_num [rowH]
  have hcell : (0 : ℚ) < cell := by norm_num [cell]
  rw [floor_div_eq_iff hrow, floor_div_eq_iff hcell]
  exact ⟨fun h => ⟨⟨h.top, h.bottom⟩, h.left, h.right⟩, fun h => ⟨h.2.1, h.2.2, h.1.1, h.1.2⟩⟩

/-- The cells lie in the part of the canvas that can be clicked. -/
theorem InCell.inside {byte bit : Nat} {x y : ℚ} (h : InCell byte bit x y) (hbyte : byte < numBytes) :
    ¬ (y < inputTop ∨ y ≥ inputTop + numBytes * rowH ∨ x < labelW) := by
  have hrow : (0 : ℚ) < rowH := by norm_num [rowH]
  have hcell : (0 : ℚ) < cell := by norm_num [cell]
  have htop := h.top
  have hbottom := h.bottom
  have hleft := h.left
  have hlast : (byte : ℚ) + 1 ≤ numBytes := by exact_mod_cast hbyte
  have hbyte₀ : (0 : ℚ) ≤ byte := Nat.cast_nonneg byte
  have hbit₀ : (0 : ℚ) ≤ bit := Nat.cast_nonneg bit
  push Not
  exact ⟨by nlinarith, by nlinarith, by nlinarith⟩

/-- A click sends a request exactly where it lies in the cell of an input bit
that is drawn, and the request asks for the opposite of what is drawn there. -/
theorem click_eq_some_iff {lastFrame : Option Json} {x y : ℚ} {r : InputRequest} :
    click lastFrame x y = some r ↔ r.byte < numBytes ∧ r.bit < 8 ∧ InCell r.byte r.bit x y ∧
      r.value = !(byteOf lastFrame "I" r.byte).testBit r.bit := by
  constructor
  · intro h
    rw [click] at h
    split at h
    · cases h
    · simp only at h
      split at h
      · cases h
      · next hrange =>
        push Not at hrange
        obtain ⟨hbyte, hbyte', hbit, hbit'⟩ := hrange
        obtain rfl := Option.some.inj h
        have hin : InCell ⌊(y - inputTop) / rowH⌋.toNat ⌊(x - labelW) / cell⌋.toNat x y :=
          inCell_iff.mpr ⟨(Int.toNat_of_nonneg hbyte).symm, (Int.toNat_of_nonneg hbit).symm⟩
        have hlast : ⌊(x - labelW) / cell⌋ < (8 : Nat) := by omega
        exact ⟨(Int.toNat_lt hbyte).mpr hbyte', (Int.toNat_lt hbit).mpr hlast, hin, shifted_bit_zero _ _⟩
  · obtain ⟨byte, bit, value⟩ := r
    rintro ⟨hbyte, hbit, hin, hvalue⟩
    simp only at hbyte hbit hin hvalue
    obtain ⟨hy, hx⟩ := inCell_iff.mp hin
    have hrange : ¬ ((byte : Int) < 0 ∨ (byte : Int) ≥ numBytes ∨ (bit : Int) < 0 ∨ (bit : Int) > 7) := by
      omega
    rw [click, if_neg (hin.inside hbyte)]
    simp only [hy, hx]
    rw [if_neg hrange]
    simp only [Int.toNat_natCast, shifted_bit_zero, hvalue]

/-- The point lies on the disc of this circle, where the page shows the canvas
with its width and height multiplied by `scale`. -/
def Arc.Covers (scale : ℚ) (c : Arc) (x y : ℚ) : Prop :=
  (x - scale * c.x) ^ 2 + (y - scale * c.y) ^ 2 ≤ (scale * 10) ^ 2

theorem sq_le_of_sum {a b r : ℚ} (h : a ^ 2 + b ^ 2 ≤ r ^ 2) : a ^ 2 ≤ r ^ 2 ∧ b ^ 2 ≤ r ^ 2 :=
  ⟨by linarith [sq_nonneg b], by linarith [sq_nonneg a]⟩

/-- A canvas that is shown a little smaller still has every disc in its cell. -/
theorem inCell_of_covers {byte bit : Nat} {on : Bool} {scale x y : ℚ} (hbyte : byte < numBytes)
    (hbit : bit < 8) (hlow : 284 / 291 ≤ scale) (hhigh : scale ≤ 1)
    (h : (arcAt inputTop byte bit on).Covers scale x y) : InCell byte bit x y := by
  simp only [Arc.Covers, arcAt, cell, rowH, labelW, inputTop] at h
  have hradius : (0 : ℚ) ≤ scale * 10 := by linarith
  obtain ⟨hx, hy⟩ := sq_le_of_sum h
  obtain ⟨hleft, hright⟩ := abs_le_of_sq_le_sq' hx hradius
  obtain ⟨htop, hbottom⟩ := abs_le_of_sq_le_sq' hy hradius
  have hbyte' : (byte : ℚ) ≤ 7 := by exact_mod_cast Nat.le_of_lt_succ hbyte
  have hbit' : (bit : ℚ) ≤ 7 := by exact_mod_cast Nat.le_of_lt_succ hbit
  have hbyte₀ : (0 : ℚ) ≤ byte := Nat.cast_nonneg byte
  have hbit₀ : (0 : ℚ) ≤ bit := Nat.cast_nonneg bit
  -- the shrunk distances, against those of the canvas at its own size
  have hcol := mul_le_mul_of_nonneg_right hlow hbit₀
  have hrow := mul_le_mul_of_nonneg_right hlow hbyte₀
  have hcol' := mul_le_mul_of_nonneg_right hhigh hbit₀
  have hrow' := mul_le_mul_of_nonneg_right hhigh hbyte₀
  constructor <;> simp only [cell, rowH, labelW, inputTop] <;> linarith

end WebPage

/-! ### The request at the server -/

open WebPage

/-- The bodies that the pages send, as the library of the server reads them. -/
def JsonLibrary.ReadsRequests (lib : JsonLibrary) : Prop :=
  ∀ r : InputRequest, r.byte < numBytes → r.bit < 8 →
    lib.parse r.body = .ok (inputDocument (UInt64.ofNat r.byte) (UInt64.ofNat r.bit) r.value)

theorem inputArguments_request {lib : JsonLibrary} (hlib : lib.ReadsRequests) {r : InputRequest}
    (hbyte : r.byte < numBytes) (hbit : r.bit < 8) : inputArguments lib r.body =
      .ok (UInt64.ofNat r.byte, (UInt64.ofNat r.bit).toUInt8, r.value) := by
  simp only [inputArguments, hlib r hbyte hbit]
  rfl

/-- It reads the bodies of the pages, whose numbers have one digit. -/
def JsonLibrary.reading : JsonLibrary :=
  { JsonLibrary.plain [] with
    parse := fun text =>
      match text.toList.drop 8 with
      | byte :: rest =>
        match rest.drop 7 with
        | bit :: rest =>
          .ok (inputDocument (UInt64.ofNat (byte.toNat - 48)) (UInt64.ofNat (bit.toNat - 48))
            (rest.drop 9 == "true\x7d".toList))
        | [] => .error (.parseError "[json.exception.parse_error.101] parse error")
      | [] => .error (.parseError "[json.exception.parse_error.101] parse error") }

theorem toList_digit {n : Nat} (h : n < 8) : (toString n).toList = [n.digitChar] := by
  rw [Nat.toString_eq_ofList_toDigits, String.toList_ofList, Nat.toDigits_of_lt_base (by omega)]

theorem digit_toNat {n : Nat} (h : n < 8) : n.digitChar.toNat - 48 = n := by
  interval_cases n <;> rfl

theorem reading_readsRequests : JsonLibrary.reading.ReadsRequests := by
  rintro ⟨byte, bit, value⟩ hbyte hbit
  have hvalue : ((toString value).toList ++ "\x7d".toList == "true\x7d".toList) = value := by
    cases value <;> decide
  have htext : (InputRequest.body ⟨byte, bit, value⟩).toList = "\x7b\"byte\":".toList ++
      byte.digitChar :: (",\"bit\":".toList ++ bit.digitChar :: (",\"value\":".toList ++
        ((toString value).toList ++ "\x7d".toList))) := by
    simp only [InputRequest.body, String.toList_append, toList_digit hbyte, toList_digit hbit,
      List.append_assoc, List.cons_append, List.nil_append]
  have hfirst : "\x7b\"byte\":".toList.length = 8 := by decide
  have hsecond : ",\"bit\":".toList.length = 7 := by decide
  have hthird : ",\"value\":".toList.length = 9 := by decide
  simp only [JsonLibrary.reading, htext, List.drop_left' hfirst, List.drop_left' hsecond,
    List.drop_left' hthird, hvalue, digit_toNat hbyte, digit_toNat hbit]

end Openaslc
