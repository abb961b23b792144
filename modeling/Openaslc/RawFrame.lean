import Openaslc.WebSocketFrame

/-! RFC 6455 frames of either side: any opcode, reserved bits, mask and form of
the length, and a decoder that takes one frame off a byte stream. -/

namespace WebSocket

/-- Where the length stands: in the second byte, or in the 16 or 64 bits after it. -/
inductive LengthForm
  | bits7
  | bits16
  | bits64
  deriving DecidableEq, Repr

namespace LengthForm

def limit : LengthForm → Nat
  | bits7 => 126
  | bits16 => 2 ^ 16
  | bits64 => 2 ^ 64

/-- How many bytes follow the second one. -/
def size : LengthForm → Nat
  | bits7 => 0
  | bits16 => 2
  | bits64 => 8

/-- The low seven bits of the second byte. -/
def announce (form : LengthForm) (length : Nat) : Nat :=
  match form with
  | bits7 => length
  | bits16 => 126
  | bits64 => 127

theorem announce_lt {form : LengthForm} {length : Nat} (h : length < form.limit) :
    form.announce length < 128 := by
  cases form with
  | bits7 => exact h.trans (by decide)
  | bits16 => exact (by decide : 126 < 128)
  | bits64 => exact (by decide : 127 < 128)

theorem read_announce {form : LengthForm} {length : Nat} (h : length < form.limit) :
    (if form.announce length < 126 then form.announce length else length % 256 ^ form.size) =
      length := by
  cases form with
  | bits7 => exact if_pos h
  | bits16 => exact (if_neg (lt_irrefl 126)).trans (Nat.mod_eq_of_lt h)
  | bits64 => exact (if_neg (by simp [announce])).trans (Nat.mod_eq_of_lt h)

end LengthForm

abbrev MaskKey := Fin 4 → UInt8

/-- XOR with the key over and over; masking and unmasking are the same. -/
def mask (key : MaskKey) (payload : List UInt8) : List UInt8 :=
  payload.mapIdx fun i byte => byte ^^^ key (Fin.ofNat 4 i)

@[simp] theorem length_mask (key : MaskKey) (payload : List UInt8) :
    (mask key payload).length = payload.length :=
  List.length_mapIdx

@[simp] theorem mask_mask (key : MaskKey) (payload : List UInt8) :
    mask key (mask key payload) = payload := by
  apply List.ext_getElem
  · simp
  · intro i _ _
    simp [mask]

def applyKey : Option MaskKey → List UInt8 → List UInt8
  | none, payload => payload
  | some key, payload => mask key payload

@[simp] theorem length_applyKey (key : Option MaskKey) (payload : List UInt8) :
    (applyKey key payload).length = payload.length := by
  cases key with
  | none => rfl
  | some key => exact length_mask key payload

@[simp] theorem applyKey_applyKey (key : Option MaskKey) (payload : List UInt8) :
    applyKey key (applyKey key payload) = payload := by
  cases key with
  | none => rfl
  | some key => exact mask_mask key payload

structure RawFrame where
  fin : Bool
  rsv : Fin 8
  opcode : Fin 16
  maskKey : Option MaskKey
  form : LengthForm
  payload : List UInt8
  fits : payload.length < form.limit

namespace RawFrame

def first (f : RawFrame) : UInt8 := UInt8.ofNat (128 * f.fin.toNat + 16 * f.rsv + f.opcode)

def second (f : RawFrame) : UInt8 :=
  UInt8.ofNat (128 * f.maskKey.isSome.toNat + f.form.announce f.payload.length)

def keyBytes (f : RawFrame) : List UInt8 :=
  match f.maskKey with
  | none => []
  | some key => List.ofFn key

def encode (f : RawFrame) : List UInt8 :=
  f.first :: f.second :: (BigEndian.encode f.form.size f.payload.length ++
    (f.keyBytes ++ applyKey f.maskKey f.payload))

end RawFrame

/-! ### Reading one frame -/

def formOf (announced : Nat) : LengthForm :=
  if announced < 126 then .bits7 else if announced = 126 then .bits16 else .bits64

def splitLength (announced : Nat) (bytes : List UInt8) : Option (Nat × List UInt8) :=
  let size := (formOf announced).size
  if bytes.length < size then none
  else some (if announced < 126 then announced else BigEndian.value (bytes.take size),
    bytes.drop size)

def splitKey (masked : Bool) (bytes : List UInt8) : Option (Option MaskKey × List UInt8) :=
  if masked then
    match bytes with
    | a :: b :: c :: d :: rest => some (some ![a, b, c, d], rest)
    | _ => none
  else some (none, bytes)

/-- The first frame of the stream and what follows it, if all of it is there. -/
def decode : List UInt8 → Option (RawFrame × List UInt8)
  | b₀ :: b₁ :: bytes => do
    let form := formOf (b₁.toNat % 128)
    let (length, bytes) ← splitLength (b₁.toNat % 128) bytes
    let (key, bytes) ← splitKey (decide (128 ≤ b₁.toNat)) bytes
    if h : length ≤ bytes.length ∧ length < form.limit then
      some ({
        fin := decide (128 ≤ b₀.toNat)
        rsv := Fin.ofNat 8 (b₀.toNat / 16)
        opcode := Fin.ofNat 16 b₀.toNat
        maskKey := key
        form := form
        payload := applyKey key (bytes.take length)
        fits := by
          rw [length_applyKey, List.length_take_of_le h.1]
          exact h.2 }, bytes.drop length)
    else none
  | _ => none

namespace RawFrame

theorem toNat_first (f : RawFrame) :
    f.first.toNat = 128 * f.fin.toNat + 16 * f.rsv + f.opcode := by
  have hfin := f.fin.toNat_le
  have hrsv := f.rsv.isLt
  have hopcode := f.opcode.isLt
  rw [first, UInt8.toNat_ofNat', Nat.mod_eq_of_lt (by omega)]

theorem toNat_second (f : RawFrame) :
    f.second.toNat = 128 * f.maskKey.isSome.toNat + f.form.announce f.payload.length := by
  have hmask := f.maskKey.isSome.toNat_le
  have hlow := LengthForm.announce_lt f.fits
  rw [second, UInt8.toNat_ofNat', Nat.mod_eq_of_lt (by omega)]

theorem second_mod (f : RawFrame) :
    f.second.toNat % 128 = f.form.announce f.payload.length := by
  have hlow := LengthForm.announce_lt f.fits
  rw [toNat_second, Nat.mul_add_mod, Nat.mod_eq_of_lt hlow]

theorem second_top (f : RawFrame) : 128 ≤ f.second.toNat ↔ f.maskKey.isSome := by
  have hlow := LengthForm.announce_lt f.fits
  rw [toNat_second]
  cases f.maskKey.isSome <;> simp; omega

theorem formOf_announce (f : RawFrame) : formOf (f.form.announce f.payload.length) = f.form := by
  have hfits := f.fits
  cases hform : f.form with
  | bits7 =>
    rw [hform] at hfits
    exact if_pos hfits
  | bits16 => rfl
  | bits64 => rfl

theorem splitLength_encode (f : RawFrame) (bytes : List UInt8) :
    splitLength (f.form.announce f.payload.length)
        (BigEndian.encode f.form.size f.payload.length ++ bytes) =
      some (f.payload.length, bytes) := by
  have hlen := BigEndian.length_encode f.form.size f.payload.length
  have hnot : ¬ (BigEndian.encode f.form.size f.payload.length ++ bytes).length < f.form.size := by
    rw [List.length_append, hlen]
    omega
  simp only [splitLength, formOf_announce, if_neg hnot]
  rw [List.drop_left' hlen, List.take_left' hlen, BigEndian.value_encode,
    LengthForm.read_announce f.fits]

theorem splitKey_encode (f : RawFrame) (bytes : List UInt8) :
    splitKey f.maskKey.isSome (f.keyBytes ++ bytes) = some (f.maskKey, bytes) := by
  rw [keyBytes]
  cases f.maskKey with
  | none => rfl
  | some key =>
    have hkey : ![key 0, key 1, key 2, key 3] = key := by
      funext i
      fin_cases i <;> rfl
    have hbytes : List.ofFn key = [key 0, key 1, key 2, key 3] := by
      simp [List.ofFn_succ]
    show splitKey true (List.ofFn key ++ bytes) = _
    rw [hbytes]
    simp [splitKey, hkey]

theorem fin_eq (f : RawFrame) : decide (128 ≤ f.first.toNat) = f.fin := by
  have hrsv := f.rsv.isLt
  have hopcode := f.opcode.isLt
  rw [toNat_first]
  cases f.fin <;> simp <;> omega

theorem rsv_eq (f : RawFrame) : Fin.ofNat 8 (f.first.toNat / 16) = f.rsv := by
  have hfin := f.fin.toNat_le
  have hrsv := f.rsv.isLt
  have hopcode := f.opcode.isLt
  apply Fin.ext
  rw [toNat_first, Fin.val_ofNat]
  omega

theorem opcode_eq (f : RawFrame) : Fin.ofNat 16 f.first.toNat = f.opcode := by
  have hopcode := f.opcode.isLt
  apply Fin.ext
  rw [toNat_first, Fin.val_ofNat]
  omega

/-- Frames delimit themselves. -/
theorem decode_encode (f : RawFrame) (rest : List UInt8) :
    decode (f.encode ++ rest) = some (f, rest) := by
  have hmask : decide (128 ≤ f.second.toNat) = f.maskKey.isSome := by
    rw [Bool.eq_iff_iff, decide_eq_true_iff, second_top]
  have hlen : (applyKey f.maskKey f.payload).length = f.payload.length := length_applyKey _ _
  have hroom : f.payload.length ≤ (applyKey f.maskKey f.payload ++ rest).length := by
    rw [List.length_append, hlen]
    omega
  have hpayload : applyKey f.maskKey ((applyKey f.maskKey f.payload ++ rest).take
      f.payload.length) = f.payload := by
    rw [List.take_left' hlen, applyKey_applyKey]
  rw [encode, List.cons_append, List.cons_append, List.append_assoc, List.append_assoc, decode]
  simp only [second_mod, splitLength_encode, hmask, splitKey_encode, formOf_announce,
    Option.bind_eq_bind, Option.bind_some, hroom, f.fits, and_self, dite_true, fin_eq, rsv_eq,
    opcode_eq, hpayload, List.drop_left' hlen]

end RawFrame

/-! ### Streams of frames -/

/-- The bytes are these frames, and nothing is left over. -/
inductive Decodes : List UInt8 → List RawFrame → Prop
  | nil : Decodes [] []
  | cons {bytes rest : List UInt8} {f : RawFrame} {frames : List RawFrame} :
    decode bytes = some (f, rest) → Decodes rest frames → Decodes bytes (f :: frames)

theorem Decodes.unique {bytes : List UInt8} {frames frames' : List RawFrame}
    (h : Decodes bytes frames) (h' : Decodes bytes frames') : frames = frames' := by
  induction h generalizing frames' with
  | nil =>
    cases h' with
    | nil => rfl
    | cons hf _ => simp [decode] at hf
  | cons hf _ ih =>
    cases h' with
    | nil => simp [decode] at hf
    | cons hf' hrest' =>
      obtain ⟨rfl, rfl⟩ : _ ∧ _ := by simpa [hf] using hf'
      rw [ih hrest']

theorem Decodes.encode_append {bytes : List UInt8} {frames : List RawFrame}
    (h : Decodes bytes frames) (f : RawFrame) : Decodes (f.encode ++ bytes) (f :: frames) :=
  .cons (f.decode_encode bytes) h

/-! ### The frames of a server -/

def LengthForm.shortest (length : Nat) : LengthForm :=
  if length < 126 then bits7 else if length < 2 ^ 16 then bits16 else bits64

theorem LengthForm.shortest_le {form : LengthForm} {length : Nat} (h : length < form.limit) :
    (shortest length).size ≤ form.size := by
  rw [shortest]
  split
  · exact Nat.zero_le _
  · next h7 =>
    split
    · cases form with
      | bits7 => exact absurd h h7
      | bits16 => exact le_refl 2
      | bits64 => exact (by decide : 2 ≤ 8)
    · next h16 =>
      cases form with
      | bits7 => exact absurd h h7
      | bits16 => exact absurd h h16
      | bits64 => exact le_refl 8

namespace Frame

theorem fits_shortest (f : Frame) : f.payload.length < (LengthForm.shortest f.payload.length).limit := by
  have hlen := f.length_lt
  rw [LengthForm.shortest]
  split
  · assumption
  · split
    · assumption
    · exact hlen.trans (by decide)

def raw (f : Frame) : RawFrame :=
  ⟨f.fin, 0, Fin.ofNat 16 f.opcode.code.toNat, none, .shortest f.payload.length, f.payload,
    f.fits_shortest⟩

theorem encode_raw (f : Frame) : f.raw.encode = f.encode := by
  have hfirst : f.raw.first = (if f.fin then 0x80 else 0) ||| f.opcode.code := by
    show UInt8.ofNat (128 * f.fin.toNat + 16 * 0 + Fin.ofNat 16 f.opcode.code.toNat) = _
    cases f.fin <;> cases f.opcode <;> rfl
  have hrest : f.raw.second :: BigEndian.encode f.raw.form.size f.payload.length =
      declare f.payload.length := by
    show UInt8.ofNat (128 * 0 + (LengthForm.shortest f.payload.length).announce _) ::
      BigEndian.encode (LengthForm.shortest f.payload.length).size _ = _
    rw [LengthForm.shortest, declare]
    split
    · simp [LengthForm.announce, LengthForm.size, BigEndian.encode]
      rfl
    · split
      · rfl
      · rfl
  rw [RawFrame.encode, encode, hfirst, ← hrest]
  rfl

end Frame

end WebSocket
