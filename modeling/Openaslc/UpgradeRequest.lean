import Openaslc.ClientSocket
import Openaslc.Occurrence
import Openaslc.Sha256

/-! The handshake's reading side: `read_websocket_key`, which searches the
bytes of the request, against what an upgrade request is, line by line. -/

namespace Openaslc

open StateExcept

/-! ### The code -/

def crlf : List UInt8 := stringBytes "\r\n"

def endOfHeaders : List UInt8 := stringBytes "\r\n\r\n"

def keyMarker : List UInt8 := stringBytes "Sec-WebSocket-Key:"

/-- `while (request.find("\r\n\r\n") == npos && request.size() < 8192)`. -/
def readRequest (request : List UInt8) : SocketM (List UInt8) :=
  if Occurrence.find endOfHeaders request = none ∧ request.length < 8192 then do
    let buf ← recv 1
    readRequest (request ++ buf.val)
  else pure request
termination_by 8192 - request.length
decreasing_by
  have hpos := List.length_pos_iff.mpr buf.property
  rw [List.length_append]
  omega

def isBlank (byte : UInt8) : Bool := byte = 0x20 || byte = 0x09

/-- `s.find_first_not_of(" \t")`. -/
def findFirstNotOfBlank (s : List UInt8) : Option Nat := s.findIdx? fun b => !isBlank b

/-- `s.find_last_not_of(" \t")`. -/
def findLastNotOfBlank (s : List UInt8) : Option Nat :=
  (s.reverse.findIdx? fun b => !isBlank b).map (s.length - 1 - ·)

def substr (s : List UInt8) (pos count : Nat) : List UInt8 := (s.drop pos).take count

/-- `s.find(word, pos)`. -/
def findFrom (word s : List UInt8) (pos : Nat) : Option Nat :=
  (Occurrence.find word (s.drop pos)).map (pos + ·)

def keyOfRequest (request : List UInt8) : List UInt8 :=
  match Occurrence.find keyMarker request with
  | none => []
  | some pos =>
    let pos := pos + keyMarker.length
    match findFrom crlf request pos with
    | none => []
    | some stop =>
      let key := substr request pos (stop - pos)
      match findFirstNotOfBlank key, findLastNotOfBlank key with
      | some first, some last => substr key first (last - first + 1)
      | _, _ => []

def readWebsocketKey (s : ClientSocket) : List UInt8 × ClientSocket :=
  match readRequest [] s with
  | .ok request s' => (keyOfRequest request, s')
  | .error _ s' => ([], s')

/-! ### What is read -/

/-- What reading byte by byte gets before `recv` gives up. -/
def arrivingFrom : List UInt8 → (Nat → Nat) → List UInt8
  | [], _ => []
  | byte :: rest, plan => if plan 0 = 0 then [] else byte :: arrivingFrom rest fun k => plan (k + 1)

def ClientSocket.arriving (s : ClientSocket) : List UInt8 := arrivingFrom s.incoming s.recvPlan

theorem ClientSocket.Flows.arriving {s : ClientSocket} (h : s.Flows) : s.arriving = s.incoming := by
  obtain ⟨incoming, recvPlan, _, _⟩ := s
  show arrivingFrom incoming recvPlan = incoming
  have hplan : ∀ k, 1 ≤ recvPlan k := h
  clear h
  induction incoming generalizing recvPlan with
  | nil => rfl
  | cons byte rest ih =>
    have h0 := hplan 0
    rw [arrivingFrom, if_neg (by omega), ih _ fun k => hplan (k + 1)]

theorem recv_one {s : ClientSocket} {byte : UInt8} {rest : List UInt8}
    (h : s.arriving = byte :: rest) :
    recv 1 s = .ok ⟨[byte], List.cons_ne_nil _ _⟩ (s.received 1) ∧
      (s.received 1).arriving = rest := by
  cases hin : s.incoming with
  | nil => simp [ClientSocket.arriving, hin, arrivingFrom] at h
  | cons b incoming =>
    rw [ClientSocket.arriving, hin, arrivingFrom] at h
    by_cases h0 : s.recvPlan 0 = 0
    · rw [if_pos h0] at h
      cases h
    · rw [if_neg h0, List.cons.injEq] at h
      obtain ⟨rfl, hrest⟩ := h
      have hmin : min (s.recvPlan 0) 1 = 1 := by omega
      refine ⟨by simp [recv, hmin, hin], ?_⟩
      rw [ClientSocket.arriving, ClientSocket.received, hin]
      exact hrest

theorem recv_one_fails {s : ClientSocket} (h : s.arriving = []) :
    ∃ s', recv 1 s = .error .closed s' ∧ s'.incoming = s.incoming := by
  cases hin : s.incoming with
  | nil =>
    exact ⟨s.received (min (s.recvPlan 0) 1), by simp [recv, hin],
      by simp [ClientSocket.received, hin]⟩
  | cons b incoming =>
    have h0 : s.recvPlan 0 = 0 := by simpa [ClientSocket.arriving, hin, arrivingFrom] using h
    exact ⟨s.received 0, by simp [recv, h0], by simp [ClientSocket.received, hin]⟩

/-- How many bytes the loop asks for. -/
def requestEnd (stream : List UInt8) : Nat :=
  match Occurrence.find endOfHeaders stream with
  | none => 8192
  | some i => min (i + 4) 8192

/-- The bytes that are searched: none, if the client stops before the loop does. -/
def requestRead (stream : List UInt8) : List UInt8 :=
  if requestEnd stream ≤ stream.length then stream.take (requestEnd stream) else []

theorem readsOn_iff {stream : List UInt8} {k : Nat} (hk : k ≤ stream.length) :
    Occurrence.find endOfHeaders (stream.take k) = none ∧ (stream.take k).length < 8192 ↔
      k < requestEnd stream := by
  have hne : endOfHeaders ≠ [] := by decide
  have hfour : endOfHeaders.length = 4 := rfl
  rw [List.length_take_of_le hk, Option.eq_none_iff_forall_ne_some, requestEnd]
  simp only [ne_eq, Occurrence.find_take_eq_some_iff hne, hfour]
  cases hf : Occurrence.find endOfHeaders stream with
  | none => simp
  | some i =>
    simp only [Option.some.injEq]
    constructor
    · rintro ⟨hlate, hsize⟩
      have hi := hlate i
      simp only [true_and] at hi
      omega
    · intro hlt
      refine ⟨fun j => ?_, by omega⟩
      rintro ⟨rfl, hle⟩
      omega

theorem readRequest_eq {stream : List UInt8} {k : Nat} {s : ClientSocket} (hk : k ≤ stream.length)
    (hend : k ≤ requestEnd stream) (h : s.arriving = stream.drop k) :
    (requestEnd stream ≤ stream.length ∧ ∃ s',
      readRequest (stream.take k) s = .ok (stream.take (requestEnd stream)) s' ∧
        s'.incoming = s.incoming.drop (requestEnd stream - k)) ∨
    (stream.length < requestEnd stream ∧ ∃ s', readRequest (stream.take k) s = .error .closed s' ∧
      s'.incoming = s.incoming.drop (stream.length - k)) := by
  induction hn : stream.length - k generalizing k s with
  | zero =>
    obtain rfl : k = stream.length := by omega
    rw [readRequest]
    by_cases hlt : stream.length < requestEnd stream
    · rw [if_pos ((readsOn_iff hk).mpr hlt)]
      rw [List.drop_length] at h
      obtain ⟨s', hrecv, hin⟩ := recv_one_fails h
      exact .inr ⟨hlt, s', bind_of_error hrecv _, hin⟩
    · rw [if_neg fun hc => hlt ((readsOn_iff hk).mp hc)]
      obtain he : requestEnd stream = stream.length := by omega
      exact .inl ⟨by omega, s, by rw [he]; rfl, by simp [he]⟩
  | succ n ih =>
    rw [readRequest]
    by_cases hlt : k < requestEnd stream
    · rw [if_pos ((readsOn_iff hk).mpr hlt)]
      have hlen : k < stream.length := by omega
      rw [List.drop_eq_getElem_cons hlen] at h
      obtain ⟨hrecv, harrive⟩ := recv_one h
      have htake : stream.take k ++ [stream[k]] = stream.take (k + 1) := by
        rw [List.take_append_getElem]
      rw [bind_of_ok hrecv, htake]
      rcases ih hlen hlt harrive (by omega) with ⟨hle, s', hok, hin⟩ | ⟨hgt, s', herr, hin⟩
      · refine .inl ⟨hle, s', hok, ?_⟩
        rw [hin, ClientSocket.received, List.drop_drop]
        congr 1
        omega
      · refine .inr ⟨hgt, s', herr, ?_⟩
        rw [hin, ClientSocket.received, List.drop_drop]
        congr 1
        omega
    · rw [if_neg fun hc => hlt ((readsOn_iff hk).mp hc)]
      obtain rfl : k = requestEnd stream := by omega
      exact .inl ⟨hk, s, rfl, by simp⟩

theorem readWebsocketKey_eq (s : ClientSocket) : ∃ s',
    readWebsocketKey s = (keyOfRequest (requestRead s.arriving), s') ∧
      s'.incoming = s.incoming.drop (min (requestEnd s.arriving) s.arriving.length) := by
  rcases readRequest_eq (Nat.zero_le s.arriving.length) (Nat.zero_le _) (s := s) rfl with
    ⟨hle, s', hok, hin⟩ | ⟨hgt, s', herr, hin⟩
  · refine ⟨s', ?_, by rw [hin, Nat.sub_zero, Nat.min_eq_left hle]⟩
    rw [readWebsocketKey, requestRead, if_pos hle]
    simp only [List.take_zero] at hok
    rw [hok]
  · refine ⟨s', ?_, by rw [hin, Nat.sub_zero, Nat.min_eq_right hgt.le]⟩
    rw [readWebsocketKey, requestRead, if_neg (by omega)]
    simp only [List.take_zero] at herr
    rw [herr]
    rfl

/-! ### Upgrade requests -/

def trim (s : List UInt8) : List UInt8 := (s.dropWhile isBlank).rdropWhile isBlank

def lowerCase (s : List UInt8) : List UInt8 :=
  s.map fun byte => if 0x41 ≤ byte ∧ byte ≤ 0x5A then byte + 0x20 else byte

/-- A header line: all before its first colon is the field name. -/
def IsField (line : List UInt8) (name : String) : Prop :=
  0x3A ∈ line ∧ lowerCase (line.takeWhile (· ≠ 0x3A)) = lowerCase (stringBytes name)

def behindColon (line : List UInt8) : List UInt8 := (line.dropWhile (· ≠ 0x3A)).drop 1

def fieldValue (line : List UInt8) : List UInt8 := trim (behindColon line)

/-- The lines between the request line and the empty line that ends the
header block, if the stream starts with such a block. -/
def headerLines (stream : List UInt8) : Option (List (List UInt8)) :=
  ((Occurrence.find endOfHeaders stream).filter fun i => decide (i + 4 ≤ 8192)).map fun i =>
    (Occurrence.fields crlf (stream.take i)).tail

/-- The stream is an upgrade request, with this key. -/
def UpgradeKey (stream key : List UInt8) : Prop :=
  ∃ lines, headerLines stream = some lines ∧
    (∃ line ∈ lines, IsField line "Upgrade" ∧ fieldValue line = stringBytes "websocket") ∧
    (∃ line ∈ lines, IsField line "Sec-WebSocket-Key" ∧ fieldValue line = key) ∧ key ≠ []

/-- One call: it returns a key for upgrade requests only, the key of one of
their lines, and leaves what follows the header block. -/
def ReadsUpgradeKey (s : ClientSocket) : Prop :=
  let (key, s') := readWebsocketKey s
  (key ≠ [] ↔ ∃ k, UpgradeKey s.arriving k) ∧ (key ≠ [] → UpgradeKey s.arriving key) ∧
    ∃ n, s'.incoming = s.incoming.drop n ∧
      ∀ i, Occurrence.find endOfHeaders s.arriving = some i → n ≤ i + endOfHeaders.length

/-- Behind the marker on the first complete line that contains it, in exactly
this spelling: the request line counts, and the marker may stand anywhere. -/
def markedText (stream : List UInt8) : Option (List UInt8) :=
  (Occurrence.fields crlf (requestRead stream)).dropLast.findSome? (Occurrence.behind keyMarker)

def Blank (text : List UInt8) : Prop := ∀ byte ∈ text, isBlank byte

/-- Two texts are one and the same but for blanks around it. -/
def SameText (a b : List UInt8) : Prop :=
  ∃ text l r l' r', a = l ++ (text ++ r) ∧ b = l' ++ (text ++ r') ∧
    Blank l ∧ Blank r ∧ Blank l' ∧ Blank r'

def AsksUpgrade (lines : List (List UInt8)) : Prop :=
  ∃ line ∈ lines, IsField line "Upgrade" ∧ fieldValue line = stringBytes "websocket"

/-- The requests that are not read as they should be. With a text behind the
marker: the header block does not end in time, or does not ask for the upgrade,
or no key line has this text. Without one: the block asks for the upgrade and
has a key, which no line spells as the marker or an earlier line hides. -/
inductive Misread (stream : List UInt8) : Prop
  | endless (text : List UInt8) (hmarked : markedText stream = some text) (htext : ¬ Blank text)
    (hblock : headerLines stream = none)
  | noUpgrade (lines : List (List UInt8)) (text : List UInt8)
    (hmarked : markedText stream = some text) (htext : ¬ Blank text)
    (hblock : headerLines stream = some lines) (hasks : ¬ AsksUpgrade lines)
  | misplaced (lines : List (List UInt8)) (text : List UInt8)
    (hmarked : markedText stream = some text) (htext : ¬ Blank text)
    (hblock : headerLines stream = some lines)
    (hother : ∀ line ∈ lines, IsField line "Sec-WebSocket-Key" → ¬ SameText (behindColon line) text)
  | unmarked (lines : List (List UInt8)) (line : List UInt8) (hmarked : markedText stream = none)
    (hblock : headerLines stream = some lines) (hasks : AsksUpgrade lines) (hline : line ∈ lines)
    (hkey : IsField line "Sec-WebSocket-Key") (hvalue : ¬ Blank (behindColon line))
  | hidden (lines : List (List UInt8)) (line text : List UInt8)
    (hmarked : markedText stream = some text) (htext : Blank text)
    (hblock : headerLines stream = some lines) (hasks : AsksUpgrade lines) (hline : line ∈ lines)
    (hkey : IsField line "Sec-WebSocket-Key") (hvalue : ¬ Blank (behindColon line))

/-! ### Blanks -/

theorem trim_eq_nil_iff {s : List UInt8} : trim s = [] ↔ Blank s := by
  rw [trim, Blank, List.rdropWhile_eq_nil_iff]
  constructor
  · intro h byte hb
    rw [← List.takeWhile_append_dropWhile (p := isBlank) (l := s)] at hb
    rcases List.mem_append.mp hb with hb | hb
    · exact List.mem_takeWhile_imp hb
    · exact h byte hb
  · intro h byte hb
    exact h byte ((List.dropWhile_suffix isBlank).subset hb)

theorem trim_blank_append {l : List UInt8} (h : Blank l) (s : List UInt8) : trim (l ++ s) = trim s := by
  rw [trim, List.dropWhile_append_of_pos h, ← trim]

theorem trim_append_blank (s : List UInt8) {r : List UInt8} (h : Blank r) : trim (s ++ r) = trim s := by
  induction r using List.reverseRecOn with
  | nil => rw [List.append_nil]
  | append_singleton r byte ih =>
    have hr : Blank r := fun b hb => h b (List.mem_append_left _ hb)
    have hbyte : isBlank byte := h byte (by simp)
    rw [← ih hr, trim, trim, ← List.append_assoc, List.dropWhile_append]
    split
    · next hall =>
      rw [List.isEmpty_iff.mp hall, List.dropWhile_cons_of_pos hbyte]
      rfl
    · exact List.rdropWhile_concat_pos _ _ _ hbyte

theorem padded_trim (s : List UInt8) : ∃ l r, s = l ++ (trim s ++ r) ∧ Blank l ∧ Blank r := by
  refine ⟨s.takeWhile isBlank, (s.dropWhile isBlank).rtakeWhile isBlank, ?_, ?_, ?_⟩
  · rw [trim, List.rdropWhile_append_rtakeWhile, List.takeWhile_append_dropWhile]
  · exact fun byte hb => List.mem_takeWhile_imp hb
  · exact fun byte hb => List.mem_rtakeWhile_imp hb

theorem sameText_iff {a b : List UInt8} : SameText a b ↔ trim a = trim b := by
  constructor
  · rintro ⟨text, l, r, l', r', rfl, rfl, hl, hr, hl', hr'⟩
    rw [trim_blank_append hl, trim_append_blank text hr, trim_blank_append hl', trim_append_blank text hr']
  · intro h
    obtain ⟨l, r, ha, hl, hr⟩ := padded_trim a
    obtain ⟨l', r', hb, hl', hr'⟩ := padded_trim b
    rw [← h] at hb
    exact ⟨trim a, l, r, l', r', ha, hb, hl, hr, hl', hr'⟩

/-! ### What is returned -/

theorem findLastNotOfBlank_eq {key : List UInt8} {first : Nat}
    (h : findFirstNotOfBlank key = some first) : ∃ last, findLastNotOfBlank key = some last ∧
      first ≤ last ∧ trim key = substr key first (last - first + 1) := by
  obtain ⟨hlt, hfirst⟩ := List.findIdx?_eq_some_iff_findIdx_eq.mp h
  have hblank : ¬ isBlank key[first] := by
    have hg := @List.findIdx_getElem _ (fun b => !isBlank b) key (by omega)
    simpa [hfirst] using hg
  obtain ⟨k, hk⟩ : ∃ k, k = key.reverse.findIdx fun b => !isBlank b := ⟨_, rfl⟩
  have hle : k ≤ key.length - 1 - first := by
    by_contra hgt
    have hbefore : key.length - 1 - first < key.reverse.findIdx fun b => !isBlank b := by omega
    have hb := List.not_of_lt_findIdx hbefore
    have hsame : key.length - 1 - (key.length - 1 - first) = first := by omega
    rw [List.getElem_reverse] at hb
    simp only [hsame] at hb
    exact hblank (by simpa using hb)
  have hlast : findLastNotOfBlank key = some (key.length - 1 - k) := by
    rw [findLastNotOfBlank, List.findIdx?_eq_some_iff_findIdx_eq.mpr ⟨?_, hk.symm⟩]
    · rfl
    · rw [List.length_reverse]
      omega
  refine ⟨key.length - 1 - k, hlast, by omega, ?_⟩
  have hreverse : (key.drop first).reverse = key.reverse.take (key.length - first) := by
    rw [List.reverse_drop]
  rw [trim, List.dropWhile_eq_drop_findIdx_not, hfirst, List.rdropWhile, hreverse,
    List.dropWhile_eq_drop_findIdx_not, List.findIdx_take, ← hk, Nat.min_eq_right (by omega),
    ← hreverse, List.reverse_drop, List.reverse_reverse, substr]
  congr 1
  rw [List.length_reverse, List.length_drop]
  omega

theorem keyOfRequest_eq (request : List UInt8) : keyOfRequest request =
    ((Occurrence.behindUpTo keyMarker crlf request).map trim).getD [] := by
  rw [keyOfRequest, Occurrence.behindUpTo, Occurrence.behind]
  cases Occurrence.find keyMarker request with
  | none => rfl
  | some pos =>
    simp only [Option.map_some, Option.bind_some, findFrom]
    cases Occurrence.find crlf (request.drop (pos + keyMarker.length)) with
    | none => rfl
    | some n =>
      have hkey : ∀ p, substr request p (p + n - p) = (request.drop p).take n := fun p => by
        rw [substr, Nat.add_sub_cancel_left]
      simp only [Option.map_some, Option.getD_some, hkey]
      generalize (request.drop (pos + keyMarker.length)).take n = key
      cases hf : findFirstNotOfBlank key with
      | none =>
        have hall := List.findIdx?_eq_none_iff.mp hf
        exact (trim_eq_nil_iff.mpr fun byte hb => by simpa using hall byte hb).symm
      | some first =>
        obtain ⟨last, hlast, _, htrim⟩ := findLastNotOfBlank_eq hf
        simp only [hlast, htrim]

theorem readWebsocketKey_fst (s : ClientSocket) :
    (readWebsocketKey s).1 = ((markedText s.arriving).map trim).getD [] := by
  have hmarker : keyMarker.Disjoint crlf := by
    simp [keyMarker, crlf, stringBytes]
  obtain ⟨s', hread, _⟩ := readWebsocketKey_eq s
  rw [hread, keyOfRequest_eq, Occurrence.behindUpTo_eq (by decide) (by decide) hmarker, markedText]

theorem upgradeKey_iff {stream key : List UInt8} : UpgradeKey stream key ↔
    ∃ lines, headerLines stream = some lines ∧ AsksUpgrade lines ∧
      (∃ line ∈ lines, IsField line "Sec-WebSocket-Key" ∧ fieldValue line = key) ∧ key ≠ [] := Iff.rfl

theorem fieldValue_ne_nil {line : List UInt8} : fieldValue line ≠ [] ↔ ¬ Blank (behindColon line) :=
  trim_eq_nil_iff.not

/-- What is returned for a request that is not misread. -/
theorem upgradeKey_of_text {stream text : List UInt8} (h : ¬ Misread stream)
    (hmarked : markedText stream = some text) (htext : ¬ Blank text) : UpgradeKey stream (trim text) := by
  cases hblock : headerLines stream with
  | none => exact absurd (.endless text hmarked htext hblock) h
  | some lines =>
    have hasks : AsksUpgrade lines := by
      by_contra hasks
      exact h (.noUpgrade lines text hmarked htext hblock hasks)
    have hplace : ∃ line ∈ lines, IsField line "Sec-WebSocket-Key" ∧ SameText (behindColon line) text := by
      by_contra hother
      refine h (.misplaced lines text hmarked htext hblock fun line hline hkey hsame => ?_)
      exact hother ⟨line, hline, hkey, hsame⟩
    obtain ⟨line, hline, hkey, hsame⟩ := hplace
    exact upgradeKey_iff.mpr ⟨lines, hblock, hasks, ⟨line, hline, hkey, sameText_iff.mp hsame⟩,
      fun hnil => htext (trim_eq_nil_iff.mp hnil)⟩

theorem text_of_upgradeKey {stream key : List UInt8} (h : ¬ Misread stream)
    (hkey : UpgradeKey stream key) : ∃ text, markedText stream = some text ∧ ¬ Blank text := by
  obtain ⟨lines, hblock, hasks, ⟨line, hline, hfield, rfl⟩, hne⟩ := hkey
  have hvalue := fieldValue_ne_nil.mp hne
  cases hmarked : markedText stream with
  | none => exact absurd (.unmarked lines line hmarked hblock hasks hline hfield hvalue) h
  | some text =>
    refine ⟨text, rfl, fun htext => ?_⟩
    exact h (.hidden lines line text hmarked htext hblock hasks hline hfield hvalue)

/-- A misread request is answered with a text that is no key of it, or not at all. -/
theorem Misread.wrong {stream : List UInt8} (h : Misread stream) :
    (∃ text, markedText stream = some text ∧ ¬ Blank text ∧ ¬ UpgradeKey stream (trim text)) ∨
      ((∀ text, markedText stream = some text → Blank text) ∧ ∃ key, UpgradeKey stream key) := by
  cases h with
  | endless text hmarked htext hblock =>
    refine .inl ⟨text, hmarked, htext, ?_⟩
    rintro ⟨lines, hlines, _⟩
    rw [hblock] at hlines
    cases hlines
  | noUpgrade lines text hmarked htext hblock hasks =>
    refine .inl ⟨text, hmarked, htext, ?_⟩
    rintro ⟨lines', hlines, hup, _⟩
    obtain rfl := Option.some.inj (hblock.symm.trans hlines)
    exact hasks hup
  | misplaced lines text hmarked htext hblock hother =>
    refine .inl ⟨text, hmarked, htext, ?_⟩
    rintro ⟨lines', hlines, _, ⟨line, hline, hkey, hvalue⟩, _⟩
    obtain rfl := Option.some.inj (hblock.symm.trans hlines)
    exact hother line hline hkey (sameText_iff.mpr hvalue)
  | unmarked lines line hmarked hblock hasks hline hkey hvalue =>
    refine .inr ⟨fun text htext => ?_, fieldValue line, lines, hblock, hasks,
      ⟨line, hline, hkey, rfl⟩, fieldValue_ne_nil.mpr hvalue⟩
    rw [hmarked] at htext
    cases htext
  | hidden lines line text hmarked htext hblock hasks hline hkey hvalue =>
    refine .inr ⟨fun text' htext' => ?_, fieldValue line, lines, hblock, hasks,
      ⟨line, hline, hkey, rfl⟩, fieldValue_ne_nil.mpr hvalue⟩
    obtain rfl := Option.some.inj (hmarked.symm.trans htext')
    exact htext

theorem readsUpgradeKey_text (s : ClientSocket) : ReadsUpgradeKey s ↔
    ((∃ text, markedText s.arriving = some text ∧ ¬ Blank text) ↔ ∃ k, UpgradeKey s.arriving k) ∧
      ∀ text, markedText s.arriving = some text → ¬ Blank text → UpgradeKey s.arriving (trim text) := by
  obtain ⟨s', hread, hin⟩ := readWebsocketKey_eq s
  have hkey := readWebsocketKey_fst s
  rw [hread] at hkey
  simp only at hkey
  have hconsumed : ∃ n, s'.incoming = s.incoming.drop n ∧
      ∀ i, Occurrence.find endOfHeaders s.arriving = some i → n ≤ i + endOfHeaders.length := by
    refine ⟨_, hin, fun i hi => ?_⟩
    have hfour : endOfHeaders.length = 4 := rfl
    rw [requestEnd, hi]
    simp only
    omega
  rw [ReadsUpgradeKey, hread]
  simp only [hconsumed, and_true, hkey]
  cases markedText s.arriving with
  | none => simp
  | some text => simp [trim_eq_nil_iff]

/-- A call answers as it should for every request that is not misread, and for
no other. -/
theorem readsUpgradeKey_iff (s : ClientSocket) : ReadsUpgradeKey s ↔ ¬ Misread s.arriving := by
  rw [readsUpgradeKey_text]
  constructor
  · rintro ⟨hiff, hvalue⟩ hmisread
    rcases hmisread.wrong with ⟨text, hmarked, htext, hwrong⟩ | ⟨hnone, hkey⟩
    · exact hwrong (hvalue text hmarked htext)
    · obtain ⟨text, hmarked, htext⟩ := hiff.mpr hkey
      exact htext (hnone text hmarked)
  · intro h
    refine ⟨⟨?_, ?_⟩, fun text => upgradeKey_of_text h⟩
    · rintro ⟨text, hmarked, htext⟩
      exact ⟨_, upgradeKey_of_text h hmarked htext⟩
    · rintro ⟨key, hkey⟩
      exact text_of_upgradeKey h hkey

/-- The ordinary request: the first line with the marker is a header line that
begins with it. -/
theorem not_misread_of_keyLine {stream text : List UInt8} {lines : List (List UInt8)}
    (hblock : headerLines stream = some lines) (hasks : AsksUpgrade lines)
    (hmarked : markedText stream = some text) (hline : keyMarker ++ text ∈ lines)
    (htext : ¬ Blank text) : ¬ Misread stream := by
  have hfield : IsField (keyMarker ++ text) "Sec-WebSocket-Key" ∧
      behindColon (keyMarker ++ text) = text := ⟨⟨by simp [keyMarker, stringBytes], rfl⟩, rfl⟩
  intro h
  cases h with
  | endless _ _ _ hnone =>
    rw [hblock] at hnone
    cases hnone
  | noUpgrade lines' _ _ _ hblock' hnot =>
    obtain rfl := Option.some.inj (hblock.symm.trans hblock')
    exact hnot hasks
  | misplaced lines' text' hmarked' _ hblock' hother =>
    obtain rfl := Option.some.inj (hblock.symm.trans hblock')
    obtain rfl := Option.some.inj (hmarked.symm.trans hmarked')
    refine hother _ hline hfield.1 (sameText_iff.mpr ?_)
    rw [hfield.2]
  | unmarked _ _ hnone =>
    rw [hmarked] at hnone
    cases hnone
  | hidden _ _ text' hmarked' hblank =>
    obtain rfl := Option.some.inj (hmarked.symm.trans hmarked')
    exact htext hblank

/-- A key header alone, without `Upgrade: websocket`. -/
def keyWithoutUpgrade : ClientSocket where
  incoming := stringBytes "GET / HTTP/1.1\r\nSec-WebSocket-Key: abc\r\n\r\n"
  recvPlan := fun _ => 1
  sendPlan := fun _ => 1

theorem headerLines_keyWithoutUpgrade :
    headerLines keyWithoutUpgrade.arriving = some [stringBytes "Sec-WebSocket-Key: abc"] := by
  have hend : (Occurrence.find endOfHeaders keyWithoutUpgrade.arriving).filter
      (fun i => decide (i + 4 ≤ 8192)) = some 38 := rfl
  have hfirst : Occurrence.find crlf (keyWithoutUpgrade.arriving.take 38) = some 14 := rfl
  have hlast : Occurrence.find crlf ((keyWithoutUpgrade.arriving.take 38).drop 16) = none := rfl
  have htwo : 14 + crlf.length = 16 := rfl
  rw [headerLines, hend, Option.map_some, Occurrence.fields_of_some (by decide) hfirst, htwo,
    Occurrence.fields_of_none hlast]
  rfl

theorem readsUpgradeKey_fails : ¬ ∀ s, ReadsUpgradeKey s := by
  intro h
  obtain ⟨s', hread, _⟩ := readWebsocketKey_eq keyWithoutUpgrade
  have hkey : keyOfRequest (requestRead keyWithoutUpgrade.arriving) = stringBytes "abc" := by
    rfl
  have hup := h keyWithoutUpgrade
  rw [ReadsUpgradeKey, hread, hkey] at hup
  obtain ⟨lines, hlines, ⟨line, hline, hfield, _⟩, _⟩ := hup.2.1 (by decide)
  rw [headerLines_keyWithoutUpgrade, Option.some.injEq] at hlines
  subst hlines
  obtain rfl : line = stringBytes "Sec-WebSocket-Key: abc" := by simpa using hline
  exact absurd hfield.2 (by decide)

end Openaslc
