import Openaslc.HistoryHandler
import Openaslc.ParserErrors

/-! The two ways a logic text comes in, a file at start and the body of a
request, and which texts get past the errors that each of them catches. -/

namespace Openaslc

/-- `read` is `file >> doc`, and `file` what the path holds if it opens. Of the
exceptions of the library only `parse_error` is caught. -/
def LogicProgram.fromFile (read : String → Except ParseFailure Json) (path : String)
    (file : Option String) (period : Int64) : Except Exception LogicProgram :=
  match file with
  | none => throw (.logicParseError ("could not open logic file: " ++ path))
  | some content =>
    match read content with
    | .ok doc => fromJson doc period
    | .error (.parseError what) =>
      throw (.logicParseError ("failed to parse " ++ path ++ ": " ++ what))
    | .error (.outOfRange what) => throw (.jsonOutOfRange what)

/-- The text is a JSON value but for a number that no double holds. -/
def OutOfRange (parse : String → Except ParseFailure Json) (text : String) : Prop :=
  ∃ what, parse text = .error (.outOfRange what)

theorem fromFile_contract_iff (read : String → Except ParseFailure Json) (path : String)
    (file : Option String) (period : Int64) :
    ((∃ program, LogicProgram.fromFile read path file period = .ok program) ∨
      Rejects (LogicProgram.fromFile read path file period)) ↔
      ∀ content, file = some content → ¬ OutOfRange read content := by
  cases file with
  | none => exact iff_of_true (.inr (rejects_throw _)) (by simp)
  | some content =>
    simp only [Option.some.injEq, forall_eq', OutOfRange, LogicProgram.fromFile]
    cases hread : read content with
    | ok doc =>
      refine iff_of_true ?_ (by simp)
      rcases fromJson_decides doc period with ⟨rules, _, hok⟩ | ⟨_, hrejects⟩
      · exact .inl ⟨_, hok⟩
      · exact .inr hrejects
    | error failure =>
      cases failure with
      | parseError what => exact iff_of_true (.inr (rejects_throw _)) (by simp)
      | outOfRange what =>
        refine iff_of_false ?_ (by simp)
        rintro (⟨program, h⟩ | ⟨text, h⟩)
        · cases h
        · cases h

/-! ### The request -/

def Refuses (lib : JsonLibrary) (req : DeployRequest) (env : DeployEnv) (s : WebServer) : Prop :=
  ∃ res s' error, postDeploy lib req env s = .ok res s' ∧ res.status = 400 ∧
    res.contentType = "application/json" ∧
    lib.dump (.object [("error", .string error)]) = .ok res.content ∧ s'.runtime = s.runtime

theorem validText_error {error : String} :
    (Json.object [("error", .string error)]).ValidText ↔ ValidUtf8 error := by
  have hkey : ValidUtf8 "error" := .of_ascii (by decide)
  simp [Json.ValidText, Json.texts, memberTexts, hkey]

theorem errorResponse_refuses {lib : JsonLibrary} (hlib : lib.StrictUtf8) {req : DeployRequest}
    {env : DeployEnv} {s : WebServer} {error message : String} {level : LogLevel}
    (h : postDeploy lib req env s = errorResponse lib 400 error level message s) :
    Refuses lib req env s ↔ ValidUtf8 error := by
  rw [← validText_error, ← hlib.dump]
  constructor
  · rintro ⟨res, s', _, hpost, _⟩
    obtain ⟨text, _, hdump, _⟩ := StateExcept.bind_eq_ok.mp (h.symm.trans hpost)
    simp only [dumpJson] at hdump
    split at hdump
    · next t ht => exact ⟨t, ht⟩
    · cases hdump
  · rintro ⟨text, htext⟩
    have hdump : dumpJson lib (.object [("error", .string error)]) s = .ok text s := by
      simp only [dumpJson, htext]
    refine ⟨_, _, error, h.trans (StateExcept.bind_eq_ok.mpr ⟨text, s, hdump,
      StateExcept.bind_eq_ok.mpr ⟨(), _, rfl, rfl⟩⟩), rfl, rfl, htext, rfl⟩

/-- A body is answered when it is within range and what the parser says about
it, if it says something, is UTF-8. -/
def Answerable (lib : JsonLibrary) (body : String) : Prop :=
  ¬ OutOfRange lib.parse body ∧
    ∀ what, lib.parse body = .error (.parseError what) → ValidUtf8 what

theorem refuses_iff {lib : JsonLibrary} (hlib : lib.StrictUtf8) {req : DeployRequest}
    (env : DeployEnv) {s : WebServer} (hrejected : ¬ ∃ doc program, lib.parse req.body = .ok doc ∧
      LogicProgram.fromJson doc s.runtime.period = .ok program) :
    Refuses lib req env s ↔ Answerable lib req.body := by
  have hbody : ∀ e, deploySwap lib req s = .error e s → postDeploy lib req env s = deployCatch lib e s := by
    intro e hswap
    have h : deployBody lib req env s = .error e s := StateExcept.bind_of_error hswap _
    simp only [postDeploy, h]
  cases hparse : lib.parse req.body with
  | error failure =>
    have hpost := hbody failure.exception (by simp only [deploySwap, hparse])
    cases failure with
    | parseError what =>
      rw [errorResponse_refuses hlib hpost, validUtf8_append_iff (by decide)]
      simp [Answerable, OutOfRange, hparse]
    | outOfRange what =>
      refine iff_of_false ?_ ?_
      · rintro ⟨res, s', _, h, _⟩
        cases hpost.symm.trans h
      · simp [Answerable, OutOfRange, hparse]
  | ok doc =>
    have hdoc := hlib.parse _ _ hparse
    rcases fromJson_decides doc s.runtime.period with ⟨rules, _, hok⟩ | ⟨_, what, hwhat⟩
    · exact absurd ⟨doc, _, hparse, hok⟩ hrejected
    · have hswap : deploySwap lib req s = .error (.logicParseError what) s := by
        simp only [deploySwap, hparse, LogicRuntime.reloadFromJson, hwhat]
        rfl
      rw [errorResponse_refuses hlib (hbody _ hswap)]
      exact iff_of_true (fromJson_speaks hdoc _ what hwhat).cString (by simp [Answerable, OutOfRange, hparse])

/-- Both ways keep to their errors, except for a number that no double holds
and, in a request, for a text that the parser quotes and that is not UTF-8. -/
theorem error_contract_iff {lib : JsonLibrary} (hlib : lib.StrictUtf8)
    (read : String → Except ParseFailure Json) :
    (∀ path file period, ((∃ program, LogicProgram.fromFile read path file period = .ok program) ∨
        Rejects (LogicProgram.fromFile read path file period)) ↔
      ∀ content, file = some content → ¬ OutOfRange read content) ∧
    ∀ (req : DeployRequest) env (s : WebServer), (¬ ∃ doc program, lib.parse req.body = .ok doc ∧
        LogicProgram.fromJson doc s.runtime.period = .ok program) →
      (Refuses lib req env s ↔ Answerable lib req.body) :=
  ⟨fromFile_contract_iff read, fun _ env _ hrejected => refuses_iff hlib env hrejected⟩

theorem error_contract_iff_strict :
    Refuses .strict ⟨"[", "", ""⟩ runsEnv archiveOnly ↔ Answerable .strict "[" := by
  apply (error_contract_iff JsonLibrary.strict_strictUtf8 JsonLibrary.strict.parse).2 ⟨"[", "", ""⟩
  rintro ⟨doc, program, hparse, _⟩
  cases hparse

/-- The strict library, with what the real one says about a number that is too
large and about a byte that begins no value. -/
def JsonLibrary.quoting : JsonLibrary where
  parse text :=
    if text = "1e999" then
      .error (.outOfRange "[json.exception.out_of_range.406] number overflow parsing '1e999'")
    else if text = highByte then
      .error (.parseError ("[json.exception.parse_error.101] parse error at line 1, column 1: " ++
        "syntax error while parsing value - invalid literal; last read: '" ++ highByte ++ "'"))
    else JsonLibrary.strict.parse text
  dump := JsonLibrary.strict.dump
  dump_noNul := JsonLibrary.strict.dump_noNul

theorem JsonLibrary.quoting_strictUtf8 : JsonLibrary.quoting.StrictUtf8 := by
  refine ⟨JsonLibrary.strict_strictUtf8.dump, fun text doc h => ?_⟩
  simp only [quoting] at h
  split at h
  · cases h
  · split at h
    · cases h
    · exact JsonLibrary.strict_strictUtf8.parse text doc h

/-- A number out of range escapes from both, and a byte that is no text from the
handler. -/
theorem error_contract_broken :
    LogicProgram.fromFile JsonLibrary.quoting.parse "logic.json" (some "1e999") 20 =
        .error (.jsonOutOfRange "[json.exception.out_of_range.406] number overflow parsing '1e999'") ∧
      ¬ Refuses .quoting ⟨"1e999", "", ""⟩ runsEnv archiveOnly ∧
      ¬ Refuses .quoting ⟨highByte, "", ""⟩ runsEnv archiveOnly := by
  have hnumber : JsonLibrary.quoting.parse "1e999" = .error (.outOfRange
      "[json.exception.out_of_range.406] number overflow parsing '1e999'") := rfl
  have hbyte : ∃ what, JsonLibrary.quoting.parse highByte = .error (.parseError what) ∧
      0xFF ∈ what.toList.map Char.toNat := ⟨_, rfl, by decide +kernel⟩
  obtain ⟨what, hwhat, hmem⟩ := hbyte
  refine ⟨rfl, ?_, ?_⟩
  · rw [refuses_iff JsonLibrary.quoting_strictUtf8 runsEnv (by simp [hnumber])]
    exact fun h => h.1 ⟨_, hnumber⟩
  · rw [refuses_iff JsonLibrary.quoting_strictUtf8 runsEnv (by simp [hwhat])]
    exact fun h => Utf8.not_valid_of_mem hmem (h.2 what hwhat)

end Openaslc
