import Openaslc.StandardLibrary

/-! JSON values as `nlohmann::json` holds them, with the accessors the
repository uses and the exceptions they raise. A double is kept as its bits. -/

namespace Openaslc

inductive Json
  | null
  | boolean (value : Bool)
  | numberInteger (value : Int64)
  | numberUnsigned (value : UInt64)
  | numberFloat (bits : UInt64)
  | string (value : String)
  | array (elements : List Json)
  | object (members : List (String × Json))

namespace Json

def isObject : Json → Bool
  | .object _ => true
  | _ => false

def typeName : Json → String
  | .null => "null"
  | .boolean _ => "boolean"
  | .numberInteger _ | .numberUnsigned _ | .numberFloat _ => "number"
  | .string _ => "string"
  | .array _ => "array"
  | .object _ => "object"

def field? (j : Json) (key : String) : Option Json :=
  match j with
  | .object members => members.lookup key
  | _ => none

def contains (j : Json) (key : String) : Bool := (j.field? key).isSome

def atKey (j : Json) (key : String) : Except Exception Json :=
  match j with
  | .object members =>
    match members.lookup key with
    | some field => return field
    | none =>
      throw (.jsonOutOfRange ("[json.exception.out_of_range.403] key '" ++ key ++ "' not found"))
  | _ => throw (.jsonTypeError ("[json.exception.type_error.304] cannot use at() with " ++ j.typeName))

/-- `is_number_integer()` and `get<int64_t>()`: an unsigned value is converted
modulo 2^64. -/
def getInt64? : Json → Option Int64
  | .numberInteger value => some value
  | .numberUnsigned value => some value.toInt64
  | _ => none

/-- The mathematical value of an integer number. -/
def integerValue? : Json → Option Int
  | .numberInteger value => some value.toInt
  | .numberUnsigned value => some value.toNat
  | _ => none

theorem atKey_of_field? {j field : Json} {key : String} (h : j.field? key = some field) :
    j.atKey key = .ok field := by
  cases j with
  | object members =>
    have hl : members.lookup key = some field := h
    simp [atKey, hl, pure, Except.pure]
  | _ => simp [field?] at h

theorem sizeOf_field?_lt {j field : Json} {key : String} (h : j.field? key = some field) :
    sizeOf field < sizeOf j := by
  cases j with
  | object members =>
    have hl : members.lookup key = some field := h
    have hm : (key, field) ∈ members := by
      obtain ⟨l₁, l₂, hsplit, _⟩ := List.lookup_eq_some_iff.mp hl
      simp [hsplit]
    have hlt := List.sizeOf_lt_of_mem hm
    simp only [Json.object.sizeOf_spec, Prod.mk.sizeOf_spec] at hlt ⊢
    omega
  | _ => simp [field?] at h

theorem isObject_of_field? {j field : Json} {key : String} (h : j.field? key = some field) :
    j.isObject = true := by
  cases j with
  | object members => rfl
  | _ => simp [field?] at h

theorem toInt_toInt64 (n : UInt64) :
    n.toInt64.toInt = if n.toNat < 2 ^ 63 then (n.toNat : Int) else (n.toNat : Int) - 2 ^ 64 := by
  have h := BitVec.toInt_eq_toNat_cond n.toBitVec
  have hn : n.toBitVec.toNat = n.toNat := rfl
  rw [hn] at h
  have he : n.toInt64.toInt = n.toBitVec.toInt := rfl
  rw [he, h]
  split <;> split <;> omega

/-- The wrapping conversion is nonnegative exactly on the values that
`int64_t` represents and that are nonnegative, and keeps those. -/
theorem getInt64?_spec {j : Json} {i : Int64} (h : j.getInt64? = some i) :
    ∃ v, j.integerValue? = some v ∧ (0 ≤ i.toInt ↔ 0 ≤ v ∧ v < 2 ^ 63) ∧
      (0 ≤ i.toInt → v = i.toInt) := by
  cases j with
  | numberInteger value =>
    obtain rfl : value = i := by simpa [getInt64?] using h
    have hlt := value.toInt_lt
    exact ⟨value.toInt, rfl, by omega, fun _ => rfl⟩
  | numberUnsigned value =>
    obtain rfl : value.toInt64 = i := by simpa [getInt64?] using h
    have hlt := value.toNat_lt
    have hi := toInt_toInt64 value
    refine ⟨value.toNat, rfl, ?_, ?_⟩
    · split at hi <;> omega
    · split at hi <;> omega
  | _ => simp [getInt64?] at h

theorem getInt64?_isSome (j : Json) : j.getInt64?.isSome = j.integerValue?.isSome := by
  cases j <;> rfl

end Json

/-- `json::parse` throws `parse_error`, or `out_of_range` for a number that no
double holds. -/
inductive ParseFailure
  | parseError (what : String)
  | outOfRange (what : String)

def ParseFailure.exception : ParseFailure → Exception
  | .parseError what => .jsonParseError what
  | .outOfRange what => .jsonOutOfRange what

/-- The text side of the library. `dump` throws `type_error` or escapes every
control character of a string. -/
structure JsonLibrary where
  parse : String → Except ParseFailure Json
  dump : Json → Except String String
  dump_noNul : ∀ j text, dump j = .ok text → Char.ofNat 0 ∉ text.toList

end Openaslc
