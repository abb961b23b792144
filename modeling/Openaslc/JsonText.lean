import Openaslc.Json

/-! The JSON library on documents whose text needs no escapes: a concrete
instance to run the handlers with. -/

namespace Openaslc

mutual

def plainText : Json → String
  | .null => "null"
  | .boolean value => if value then "true" else "false"
  | .numberInteger value => toString value.toInt
  | .numberUnsigned value => toString value.toNat
  | .numberFloat _ => "0.0"
  | .string value => "\"" ++ value ++ "\""
  | .array elements => "[" ++ ",".intercalate (plainTexts elements) ++ "]"
  | .object members => "\x7b" ++ ",".intercalate (plainMembers members) ++ "\x7d"

def plainTexts : List Json → List String
  | [] => []
  | element :: rest => plainText element :: plainTexts rest

def plainMembers : List (String × Json) → List String
  | [] => []
  | (key, value) :: rest => ("\"" ++ key ++ "\":" ++ plainText value) :: plainMembers rest

end

/-- `parse` knows the given documents; `dump` is right on values without
floats whose strings are printable and need no escapes. -/
def JsonLibrary.plain (documents : List Json) : JsonLibrary where
  parse text :=
    match documents.find? fun document => plainText document == text with
    | some document => .ok document
    | none => .error (.parseError "[json.exception.parse_error.101] parse error")
  dump j := .ok (String.ofList ((plainText j).toList.filter fun c => c ≠ Char.ofNat 0))
  dump_noNul := by
    intro j text h
    cases h
    simp

theorem JsonLibrary.plain_dump (documents : List Json) {j : Json}
    (h : ((plainText j).toList.all fun c => c != Char.ofNat 0) = true) :
    (JsonLibrary.plain documents).dump j = .ok (plainText j) := by
  have hfilter : ((plainText j).toList.filter fun c => c ≠ Char.ofNat 0) = (plainText j).toList :=
    List.filter_eq_self.mpr fun c hc => by simpa using List.all_eq_true.mp h c hc
  simp only [plain, hfilter, String.ofList_toList]

/-- The smallest acceptable program. -/
def noRules : Json := .object [("rules", .array [])]

theorem JsonLibrary.plain_noRules {text : String}
    (h : (JsonLibrary.plain [noRules]).dump noRules = .ok text) :
    (JsonLibrary.plain [noRules]).parse text = .ok noRules := by
  rw [JsonLibrary.plain_dump [noRules] (by decide)] at h
  cases h
  rfl

end Openaslc
