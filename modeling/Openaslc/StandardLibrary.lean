import Mathlib

/-! What the code uses of the C++ standard library, and the time stamps made with
it. A `std::string` is a `String` with one character for each byte. -/

namespace Openaslc

/-! ### Exceptions -/

/-- The exceptions the program throws or catches, those of the program with the
text that they are made with and the others with what `what()` shows. -/
inductive Exception
  | outOfRange (what : String)
  | invalidArgument (what : String)
  | lengthError (what : String)
  | badAlloc (what : String)
  | logicParseError (what : String)
  | configArchiveError (what : String)
  | jsonParseError (what : String)
  | jsonOutOfRange (what : String)
  | jsonTypeError (what : String)
  deriving DecidableEq, Repr

/-- A raw access outside its array throws nothing; the language leaves its
effect undefined. -/
inductive Fault
  | threw (e : Exception)
  | undefinedBehaviour
  deriving DecidableEq, Repr

/-- What C sees of a `std::string`: `what()` shows so much of the text that an
exception was made with, and `sqlite3_bind_text` with length -1 binds it. -/
def cString (s : String) : String :=
  String.ofList (s.toList.takeWhile fun c => c ≠ Char.ofNat 0)

/-! ### Vectors -/

/-- `std::vector<uint8_t>`, whose size is a `size_t`. -/
structure ByteVector where
  data : List UInt8
  size_lt : data.length < 2 ^ 64

def ByteVector.size (v : ByteVector) : UInt64 := UInt64.ofNat v.data.length

theorem ByteVector.toNat_size (v : ByteVector) : v.size.toNat = v.data.length := by
  simpa [ByteVector.size] using v.size_lt

/-- Largest `size()` of a `std::vector<uint8_t>`; building a longer one throws. -/
def vectorMaxSize : Nat := 2 ^ 63 - 1

/-! ### Time stamps -/

/-- `std::setfill('0') << std::setw(width) << value` -/
def zeroPadded (width : Nat) (value : Int) : String :=
  String.ofList ((toString value).toList.leftpad width '0')

structure CivilDate where
  year : Int
  month : Int
  day : Int

/-- The date part of `gmtime_r`, from the day number; years start in March, so
that a leap day is the last of its year. -/
def civilDate (days : Int) : CivilDate :=
  let z := days + 719468
  let era := z / 146097
  let dayOfEra := z % 146097
  let yearOfEra := (dayOfEra - dayOfEra / 1460 + dayOfEra / 36524 - dayOfEra / 146096) / 365
  let dayOfYear := dayOfEra - (365 * yearOfEra + yearOfEra / 4 - yearOfEra / 100)
  let m := (5 * dayOfYear + 2) / 153
  let month := if m < 10 then m + 3 else m - 9
  { year := yearOfEra + era * 400 + if month ≤ 2 then 1 else 0
    month := month
    day := dayOfYear - (153 * m + 2) / 5 + 1 }

/-- From milliseconds since the epoch: `to_time_t` and `duration_cast` round towards
zero, `gmtime_r` rounds down. -/
def currentTimestamp (now : Int) : String :=
  let tt := now.tdiv 1000
  let ms := now.tmod 1000
  let date := civilDate (tt / 86400)
  let second := tt % 86400
  toString date.year ++ "-" ++ zeroPadded 2 date.month ++ "-" ++ zeroPadded 2 date.day ++ "T" ++
    zeroPadded 2 (second / 3600) ++ ":" ++ zeroPadded 2 (second / 60 % 60) ++ ":" ++
    zeroPadded 2 (second % 60) ++ "." ++ zeroPadded 3 ms ++ "Z"

end Openaslc
