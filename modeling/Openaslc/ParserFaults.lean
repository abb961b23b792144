import Openaslc.LogicGrammar
import Openaslc.ParserErrors

/-! Where the parser's errors point: each names a place of the document, and is
true of the value that stands there. -/

namespace Openaslc

/-! ### What a computation throws -/

def Throws {ε α : Type} (P : ε → Prop) (x : Except ε α) : Prop := ∀ e, x = .error e → P e

namespace Throws

variable {ε α β : Type} {P : ε → Prop}

theorem ok (a : α) : Throws P (.ok a) := nofun

theorem throw {e : ε} (h : P e) : Throws P (throw e : Except ε α) := by
  rintro e' ⟨⟩
  exact h

theorem bind {x : Except ε α} {f : α → Except ε β} (hx : Throws P x)
    (hf : ∀ a, x = .ok a → Throws P (f a)) : Throws P (x >>= f) := by
  cases hr : x with
  | error e =>
    rintro e' ⟨⟩
    exact hx e hr
  | ok a => exact hf a hr

end Throws

/-! ### Places -/

inductive PathStep
  | member (key : String)
  | element (index : Nat)

def PathStep.text : PathStep → String
  | .member key => "." ++ key
  | .element index => "[" ++ toString index ++ "]"

namespace Json

def child? (j : Json) : PathStep → Option Json
  | .member key => j.field? key
  | .element index =>
    match j with
    | .array elements => elements[index]?
    | _ => none

/-- The value at the end of a path. -/
def at? (j : Json) (path : List PathStep) : Option Json := path.foldlM child? j

theorem at?_concat (j : Json) (path : List PathStep) (step : PathStep) :
    j.at? (path ++ [step]) = (j.at? path).bind fun v => v.child? step := by
  simp [at?, List.foldlM_append]

end Json

/-- A place inside a rule, by its path from there. -/
def inRule (index : Nat) (path : List PathStep) : List PathStep :=
  .member "rules" :: .element index :: path

/-- How the parser names a place. -/
def placeText : List PathStep → String
  | [] => "document"
  | [.member "rules"] => "document.rules"
  | .member "rules" :: .element index :: path =>
    path.foldl (fun text step => text ++ step.text) ("rules[" ++ toString index ++ "]")
  | _ => ""

theorem placeText_concat (index : Nat) (path : List PathStep) (step : PathStep) :
    placeText (inRule index (path ++ [step])) = placeText (inRule index path) ++ step.text := by
  simp [placeText, inRule]

theorem at?_inRule {doc rule : Json} {rules : List Json} {index : Nat}
    (hrules : doc.field? "rules" = some (.array rules)) (hrule : rules[index]? = some rule) :
    doc.at? (inRule index []) = some rule := by
  simp [Json.at?, inRule, Json.child?, hrules, hrule]

/-! ### Faults -/

/-- What the parser expects an object to be. -/
inductive ObjectKind
  | document
  | rule
  | condition
  | signalRef

def ObjectKind.text : ObjectKind → String
  | .document => "a JSON object"
  | .rule => "a rule object"
  | .condition => "a condition node object"
  | .signalRef => "a signal reference object"

def nodeTypes : List String := ["INPUT", "AND", "OR", "NOT", "TON_TIMER"]

/-- What is wrong at a place, in the parser's words. An integer is judged, as it
is shown, by the value that `get<int64_t>` reads: from 2^63 on modulo 2^64. -/
inductive DocumentFault (doc : Json) : List PathStep → String → Prop
  | notObject {place : List PathStep} {v : Json} (kind : ObjectKind) (hat : doc.at? place = some v)
      (h : v.isObject = false) : DocumentFault doc place ("expected " ++ kind.text)
  | missing {place : List PathStep} {v : Json} (key : String) (hat : doc.at? place = some v)
      (hobject : v.isObject = true) (h : v.field? key = none) :
      DocumentFault doc place ("missing required field '" ++ key ++ "'")
  | notInteger {place : List PathStep} {v : Json} (hat : doc.at? place = some v)
      (h : v.integerValue? = none) : DocumentFault doc place "expected an integer"
  | notString {place : List PathStep} {v : Json} (hat : doc.at? place = some v)
      (h : ∀ s, v ≠ .string s) : DocumentFault doc place "expected a string"
  | notArray {place : List PathStep} {v : Json} (hat : doc.at? place = some v)
      (h : ∀ es, v ≠ .array es) : DocumentFault doc place "expected an array"
  | noInputs {place : List PathStep} {v : Json} (hat : doc.at? place = some v)
      (h : ∀ e es, v ≠ .array (e :: es)) : DocumentFault doc place "expected a non-empty array"
  | unknownArea {place : List PathStep} {s : String} (hat : doc.at? place = some (.string s))
      (h : s ∉ ["I", "Q", "M"]) :
      DocumentFault doc place ("unknown area '" ++ s ++ "' (expected \"I\", \"Q\", or \"M\")")
  | inputOutput {index : Nat}
      (hat : doc.at? (inRule index [.member "output", .member "area"]) = some (.string "I")) :
      DocumentFault doc (inRule index [.member "output", .member "area"])
        "rule outputs cannot target %I (reserved for driver writes)"
  | byteRange {place : List PathStep} {v : Json} {n : Int64} {area : MemoryArea}
      (harea : doc.at? (place ++ [.member "area"]) = some (.string area.letter))
      (hat : doc.at? (place ++ [.member "byte"]) = some v) (hvalue : v.getInt64? = some n)
      (h : ¬ (0 ≤ n.toInt ∧ n.toInt < getSize area)) :
      DocumentFault doc (place ++ [.member "byte"]) (toString n.toInt ++
        " is out of range for this area (0.." ++ toString (getSize area - 1) ++ ")")
  | bitRange {place : List PathStep} {v : Json} {n : Int64} (hat : doc.at? place = some v)
      (hvalue : v.getInt64? = some n) (h : ¬ (0 ≤ n.toInt ∧ n.toInt ≤ 7)) :
      DocumentFault doc place (toString n.toInt ++ " must be 0..7")
  | preset {place : List PathStep} {v : Json} {n : Int64} (hat : doc.at? place = some v)
      (hvalue : v.getInt64? = some n) (h : ¬ 0 ≤ n.toInt) : DocumentFault doc place "must be >= 0"
  | invalidNode {place : List PathStep} {s : String} (hat : doc.at? place = some (.string s))
      (h : isValidNodeUidFormat s = false) : DocumentFault doc place ("'" ++ s ++
        "' is not a valid node UID (expected 2, 4, or 8 alphanumeric characters)")
  | remoteNode {place : List PathStep} {s : String} (hat : doc.at? place = some (.string s))
      (h : isValidNodeUidFormat s = true) : DocumentFault doc place
        ("remote signal references are not supported yet -- " ++
          "hive IO forwarding is a future feature; omit 'node' to reference this board's own " ++
          "memory map")
  | unknownType {place : List PathStep} {s : String} (hat : doc.at? place = some (.string s))
      (h : s ∉ nodeTypes) : DocumentFault doc place ("unknown node type '" ++ s ++ "'")

/-- An error about a rule that is true of the place it names there. -/
def Reports (doc : Json) (index : Nat) (e : Exception) : Prop :=
  ∃ path text, DocumentFault doc (inRule index path) text ∧
    e = .logicParseError (placeText (inRule index path) ++ ": " ++ text)

theorem DocumentFault.reports {doc : Json} {index : Nat} {path : List PathStep} {text what : String}
    (h : DocumentFault doc (inRule index path) text)
    (hwhat : what = placeText (inRule index path) ++ ": " ++ text) :
    Reports doc index (.logicParseError what) :=
  ⟨path, text, h, by rw [hwhat]⟩

theorem Throws.throwIf {P : Exception → Prop} {c : Bool} {what : String}
    (h : c = true → P (.logicParseError what)) : Throws P (throwIf c what) := by
  rw [Openaslc.throwIf]
  split
  · next hc => exact .throw (h hc)
  · exact .ok ()

theorem Decides.of_ok {α β : Type} {D : β → Prop} {build : β → α} {x : Except Exception α} {a : α}
    (h : Decides D build x) (hx : x = .ok a) : ∃ b, D b ∧ a = build b := by
  rcases h with ⟨b, hb, hok⟩ | ⟨_, what, herr⟩
  · exact ⟨b, hb, Except.ok.inj (hx.symm.trans hok)⟩
  · rw [hx] at herr
    cases herr

theorem throwIf_passes {c : Bool} {what : String} {u : Unit} (h : throwIf c what = .ok u) : c = false := by
  obtain ⟨_, hc, _⟩ := (throwIf_decides c what).of_ok h
  exact hc

/-! ### Fields -/

section

variable {doc j : Json} {index : Nat} {path : List PathStep}

theorem member_text (index : Nat) (path : List PathStep) (key text : String) :
    placeText (inRule index path) ++ "." ++ key ++ (": " ++ text) =
      placeText (inRule index (path ++ [.member key])) ++ ": " ++ text := by
  rw [placeText_concat, PathStep.text]
  simp only [String.append_assoc]

theorem at?_member {field : Json} {key : String} (hat : doc.at? (inRule index path) = some j)
    (hfield : j.field? key = some field) :
    doc.at? (inRule index (path ++ [.member key])) = some field := by
  show doc.at? (inRule index path ++ [.member key]) = some field
  rw [Json.at?_concat, hat]
  exact hfield

theorem requireField_reports (hat : doc.at? (inRule index path) = some j) (hobject : j.isObject = true)
    (key : String) : Throws (Reports doc index) (requireField j key (placeText (inRule index path))) := by
  cases hf : j.field? key with
  | none =>
    rw [requireField_of_none _ hf]
    refine Throws.throw (DocumentFault.reports (.missing key hat hobject hf) ?_)
    have hliteral : ": missing required field '" = ": " ++ "missing required field '" := by decide
    simp only [hliteral, String.append_assoc]
  | some field =>
    rw [requireField_of_field? _ hf]
    exact .ok field

theorem requireInt_reports (hat : doc.at? (inRule index path) = some j) (hobject : j.isObject = true)
    (key : String) : Throws (Reports doc index) (requireInt j key (placeText (inRule index path))) := by
  refine (requireField_reports hat hobject key).bind fun field hfield => ?_
  have hplace := at?_member hat (field?_of_requireField hfield)
  cases hi : field.getInt64? with
  | some i => exact .ok i
  | none =>
    have hno : field.integerValue? = none := by
      rw [← Option.not_isSome_iff_eq_none, ← Json.getInt64?_isSome, hi]
      exact Bool.false_ne_true
    have hliteral : ": expected an integer" = ": " ++ "expected an integer" := by decide
    rw [hliteral]
    exact Throws.throw (DocumentFault.reports (.notInteger hplace hno) (member_text index path key _))

theorem requireString_reports (hat : doc.at? (inRule index path) = some j) (hobject : j.isObject = true)
    (key : String) : Throws (Reports doc index) (requireString j key (placeText (inRule index path))) := by
  refine (requireField_reports hat hobject key).bind fun field hfield => ?_
  have hplace := at?_member hat (field?_of_requireField hfield)
  have hno : (∀ s, field ≠ .string s) → Throws (Reports doc index) (throw (.logicParseError
      (placeText (inRule index path) ++ "." ++ key ++ ": expected a string")) : Except Exception String) := by
    intro h
    have hliteral : ": expected a string" = ": " ++ "expected a string" := by decide
    rw [hliteral]
    exact Throws.throw (DocumentFault.reports (.notString hplace h) (member_text index path key _))
  cases field with
  | string s => exact .ok s
  | _ => exact hno nofun

theorem requireInt_value {key text : String} {i : Int64} (h : requireInt j key text = .ok i) :
    ∃ field, j.field? key = some field ∧ field.getInt64? = some i := by
  obtain ⟨_, ⟨field, hfield, hi⟩, rfl⟩ := (requireInt_decides j key text).of_ok h
  exact ⟨field, hfield, hi⟩

theorem requireString_value {key text s : String} (h : requireString j key text = .ok s) :
    j.field? key = some (.string s) := by
  obtain ⟨_, hfield, rfl⟩ := (requireString_decides j key text).of_ok h
  exact hfield

/-! ### References -/

/-- The text of an error about a member, which the parser writes in one piece. -/
theorem literal_text {literal key : String} (h : literal = "." ++ key ++ ": ") (index : Nat)
    (path : List PathStep) (text : String) : placeText (inRule index path) ++ (literal ++ text) =
      placeText (inRule index (path ++ [.member key])) ++ ": " ++ text := by
  rw [h, placeText_concat, PathStep.text]
  simp only [String.append_assoc]

theorem rejectNode_reports (hat : doc.at? (inRule index path) = some j) :
    Throws (Reports doc index) (rejectNode j (placeText (inRule index path))) := by
  cases hf : j.field? "node" with
  | none =>
    have hc : j.contains "node" = false := by simp [Json.contains, hf]
    rw [rejectNode, hc]
    exact .ok ()
  | some field =>
    have hc : j.contains "node" = true := by simp [Json.contains, hf]
    have hplace := at?_member hat hf
    have hno : (∀ s, field ≠ .string s) → Throws (Reports doc index) (throw (.logicParseError
        (placeText (inRule index path) ++ ".node: expected a string")) : Except Exception Unit) := by
      intro h
      have hliteral : ".node: expected a string" = ".node: " ++ "expected a string" := by decide
      rw [hliteral]
      exact Throws.throw (DocumentFault.reports (.notString hplace h)
        (literal_text (by decide) index path _))
    rw [rejectNode, if_pos hc, Json.atKey_of_field? hf, ok_bind]
    cases field with
    | string s =>
      refine Throws.bind (Throws.throwIf fun hbad => ?_) fun _ hgood => ?_
      · have hliteral : ".node: '" = ".node: " ++ "'" := by decide
        refine DocumentFault.reports (.invalidNode hplace (by simpa using hbad)) ?_
        rw [← literal_text (by decide : ".node: " = _), hliteral]
        simp only [String.append_assoc]
      · have hliteral : ".node: remote signal references are not supported yet -- " =
            ".node: " ++ "remote signal references are not supported yet -- " := by decide
        refine Throws.throw (DocumentFault.reports (.remoteNode hplace (by simpa using throwIf_passes hgood)) ?_)
        rw [← literal_text (by decide : ".node: " = _), hliteral]
        simp only [String.append_assoc]
    | _ => exact hno fun s hs => Json.noConfusion hs

theorem parseArea_reports {s : String}
    (hat : doc.at? (inRule index (path ++ [.member "area"])) = some (.string s)) :
    Throws (Reports doc index) (parseArea s (placeText (inRule index path) ++ ".area")) := by
  rw [parseArea]
  split
  · exact .ok _
  split
  · exact .ok _
  split
  · exact .ok _
  · next hI hQ hM =>
    have hmember : ".area" = "." ++ "area" := by decide
    have hliteral : ": unknown area '" = ": " ++ "unknown area '" := by decide
    have hunknown : s ∉ ["I", "Q", "M"] := by simp [hI, hQ, hM]
    refine Throws.throw (DocumentFault.reports (.unknownArea hat hunknown) ?_)
    rw [← member_text, hliteral, hmember]
    simp only [String.append_assoc]

theorem parseSignalRef_reports (hat : doc.at? (inRule index path) = some j) {allowInputArea : Bool}
    (houtput : allowInputArea = false → path = [.member "output"]) :
    Throws (Reports doc index) (parseSignalRef j (placeText (inRule index path)) allowInputArea) := by
  refine Throws.bind (Throws.throwIf fun hbad => ?_) fun _ hgood => ?_
  · have hliteral : ": expected a signal reference object" = ": " ++ "expected a signal reference object" := by
      decide
    rw [hliteral, ← String.append_assoc]
    exact DocumentFault.reports (.notObject .signalRef hat (by simpa using hbad)) rfl
  have hobject : j.isObject = true := by simpa using throwIf_passes hgood
  refine (rejectNode_reports hat).bind fun _ _ => ?_
  refine (requireString_reports hat hobject "area").bind fun areaStr hareaStr => ?_
  have harea := at?_member hat (requireString_value hareaStr)
  refine (parseArea_reports harea).bind fun area hparse => ?_
  obtain ⟨_, rfl, rfl⟩ := (parseArea_decides _ _).of_ok hparse
  refine Throws.bind (Throws.throwIf fun hbad => ?_) fun _ _ => ?_
  · obtain ⟨hno, hinput⟩ : allowInputArea = false ∧ area = .input := by simpa using hbad
    subst hinput
    obtain rfl := houtput hno
    have hliteral : ".area: rule outputs cannot target %I (reserved for driver writes)" =
        ".area: " ++ "rule outputs cannot target %I (reserved for driver writes)" := by decide
    rw [hliteral]
    exact DocumentFault.reports (.inputOutput harea) (literal_text (by decide) index _ _)
  refine (requireInt_reports hat hobject "byte").bind fun byte hbyte => ?_
  obtain ⟨field, hfield, hvalue⟩ := requireInt_value hbyte
  refine Throws.bind (Throws.throwIf fun hbad => ?_) fun _ _ => ?_
  · have hout : ¬ (0 ≤ byte.toInt ∧ byte.toInt < getSize area) := by
      rw [← byteCheck_iff byte area, hbad]
      decide
    have hplace := at?_member hat hfield
    have hfault : DocumentFault doc (inRule index (path ++ [.member "byte"])) _ :=
      @DocumentFault.byteRange doc (inRule index path) field byte area harea hplace hvalue hout
    refine hfault.reports ?_
    rw [← literal_text (by decide : ".byte: " = _)]
    simp only [String.append_assoc]
  refine (requireInt_reports hat hobject "bit").bind fun bit hbit => ?_
  obtain ⟨field, hfield, hvalue⟩ := requireInt_value hbit
  refine Throws.bind (Throws.throwIf fun hbad => ?_) fun _ _ => .ok _
  · have hout : ¬ (0 ≤ bit.toInt ∧ bit.toInt ≤ 7) := by
      intro hin
      rw [(bitCheck_iff bit).mpr ⟨hin.1, by omega⟩] at hbad
      cases hbad
    refine DocumentFault.reports (.bitRange (at?_member hat hfield) hvalue hout) ?_
    rw [← literal_text (by decide : ".bit: " = _)]
    simp only [String.append_assoc]

/-! ### Conditions and rules -/

theorem requireChild_reports (hat : doc.at? (inRule index path) = some j) (hobject : j.isObject = true)
    (key : String) : Throws (Reports doc index) (requireChild j key (placeText (inRule index path))) := by
  have hfield := requireField_reports hat hobject key
  unfold requireChild
  split
  · exact .ok _
  · next e he =>
    rintro e' ⟨⟩
    exact hfield e he

def ConditionReports (doc : Json) (period : Int64) (j : Json) : Prop :=
  ∀ index path, doc.at? (inRule index path) = some j →
    Throws (Reports doc index) (parseConditionNode period j (placeText (inRule index path)))

theorem input_text (index : Nat) (path : List PathStep) (i : Nat) :
    placeText (inRule index path) ++ ".inputs[" ++ toString i ++ "]" =
      placeText (inRule index (path ++ [.member "inputs", .element i])) := by
  have hsplit : path ++ [.member "inputs", .element i] = (path ++ [.member "inputs"]) ++ [.element i] := by
    simp
  have hliteral : ".inputs[" = "." ++ "inputs" ++ "[" := by decide
  rw [hsplit, placeText_concat, placeText_concat, hliteral]
  simp only [PathStep.text, String.append_assoc]

theorem parseInputs_reports {period : Int64} {all : List Json}
    (hat : doc.at? (inRule index (path ++ [.member "inputs"])) = some (.array all)) {es : List Json}
    (h : ∀ e ∈ es, ConditionReports doc period e) (i : Nat) (hes : all.drop i = es) :
    Throws (Reports doc index) (parseInputs period es i (placeText (inRule index path))) := by
  induction es generalizing i with
  | nil =>
    rw [parseInputs]
    exact .ok []
  | cons e es ih =>
    have helement : all[i]? = some e := by
      rw [← List.head?_drop, hes]
      rfl
    have hplace : doc.at? (inRule index (path ++ [.member "inputs", .element i])) = some e := by
      have hsplit : inRule index (path ++ [.member "inputs", .element i]) =
          inRule index (path ++ [.member "inputs"]) ++ [.element i] := by simp [inRule]
      rw [hsplit, Json.at?_concat, hat]
      exact helement
    have htail : all.drop (i + 1) = es := by
      rw [← List.tail_drop, hes]
      rfl
    rw [parseInputs, input_text]
    refine (h e List.mem_cons_self _ _ hplace).bind fun child _ => ?_
    exact (ih (fun d hd => h d (List.mem_cons_of_mem _ hd)) (i + 1) htail).bind fun _ _ => .ok _

theorem parseBoolCombinator_reports {period : Int64} (hat : doc.at? (inRule index path) = some j)
    (hobject : j.isObject = true) (h : ∀ e : Json, sizeOf e < sizeOf j → ConditionReports doc period e)
    (isAnd : Bool) :
    Throws (Reports doc index) (parseBoolCombinator period j (placeText (inRule index path)) isAnd) := by
  rw [parseBoolCombinator]
  refine (requireChild_reports hat hobject "inputs").bind fun child hchild => ?_
  have hplace := at?_member hat (requireChild_field hchild)
  have hno : (∀ e es, child.val ≠ .array (e :: es)) → Throws (Reports doc index) (throw (.logicParseError
      (placeText (inRule index path) ++ ".inputs: expected a non-empty array")) :
        Except Exception LogicNode) := by
    intro hne
    have hliteral : ".inputs: expected a non-empty array" = ".inputs: " ++ "expected a non-empty array" := by
      decide
    rw [hliteral]
    exact Throws.throw (DocumentFault.reports (.noInputs hplace hne) (literal_text (by decide) index path _))
  obtain ⟨field, hlt⟩ := child
  cases field with
  | array elements =>
    cases elements with
    | nil => exact hno fun e es hne => by simp at hne
    | cons e es =>
      have hes : ∀ d ∈ e :: es, ConditionReports doc period d := by
        intro d hd
        have hd' := List.sizeOf_lt_of_mem hd
        simp only [Json.array.sizeOf_spec] at hlt
        exact h d (by omega)
      exact (parseInputs_reports hplace hes 0 rfl).bind fun _ _ => .ok _
  | _ => exact hno fun e es hne => Json.noConfusion hne

theorem parseConditionNode_reports (doc : Json) (period : Int64) (j : Json) :
    ConditionReports doc period j := by
  induction hn : sizeOf j using Nat.strong_induction_on generalizing j with
  | _ n ih =>
  have hchild : ∀ e : Json, sizeOf e < sizeOf j → ConditionReports doc period e :=
    fun e hlt => ih (sizeOf e) (hn ▸ hlt) e rfl
  intro index path hat
  have hinput : ∀ {child : { f : Json // sizeOf f < sizeOf j }},
      requireChild j "input" (placeText (inRule index path)) = .ok child →
        Throws (Reports doc index) (parseConditionNode period child.val
          (placeText (inRule index path) ++ ".input")) := by
    intro child hfield
    have hplace := hchild child.val child.property index _ (at?_member hat (requireChild_field hfield))
    have hliteral : ".input" = "." ++ "input" := by decide
    rw [placeText_concat, PathStep.text, ← hliteral] at hplace
    exact hplace
  rw [parseConditionNode]
  refine Throws.bind (Throws.throwIf fun hbad => ?_) fun _ hgood => ?_
  · have hliteral : ": expected a condition node object" = ": " ++ "expected a condition node object" := by
      decide
    rw [hliteral, ← String.append_assoc]
    exact DocumentFault.reports (.notObject .condition hat (by simpa using hbad)) rfl
  have hobject : j.isObject = true := by simpa using throwIf_passes hgood
  refine (requireString_reports hat hobject "type").bind fun type htype => ?_
  split
  · exact (parseSignalRef_reports hat (by simp)).bind fun _ _ => .ok _
  split
  · exact parseBoolCombinator_reports hat hobject hchild true
  split
  · exact parseBoolCombinator_reports hat hobject hchild false
  split
  · refine (requireChild_reports hat hobject "input").bind fun child hfield => ?_
    exact (hinput hfield).bind fun _ _ => .ok _
  split
  · refine (requireChild_reports hat hobject "input").bind fun child hfield => ?_
    refine (hinput hfield).bind fun _ _ => ?_
    refine (requireInt_reports hat hobject "preset_ms").bind fun presetMs hpreset => ?_
    refine Throws.bind (Throws.throwIf fun hbad => ?_) fun _ _ => .ok _
    obtain ⟨field, hfield, hvalue⟩ := requireInt_value hpreset
    have hout : ¬ 0 ≤ presetMs.toInt := by
      rw [← int64_nonneg_iff]
      exact of_decide_eq_true hbad
    have hliteral : ".preset_ms: must be >= 0" = ".preset_ms: " ++ "must be >= 0" := by decide
    rw [hliteral]
    exact DocumentFault.reports (.preset (at?_member hat hfield) hvalue hout)
      (literal_text (by decide) index path _)
  · next hin hand hor hnot hton =>
    have hunknown : type ∉ nodeTypes := by simp [nodeTypes, hin, hand, hor, hnot, hton]
    have hliteral : ".type: unknown node type '" = ".type: " ++ "unknown node type '" := by decide
    refine Throws.throw (DocumentFault.reports
      (.unknownType (at?_member hat (requireString_value htype)) hunknown) ?_)
    rw [← literal_text (by decide : ".type: " = _), hliteral]
    simp only [String.append_assoc]

theorem parseRule_reports {rule : Json} (period : Int64) (hat : doc.at? (inRule index []) = some rule) :
    Throws (Reports doc index) (parseRule period rule index) := by
  have hliteral : ": expected a rule object" = ": " ++ "expected a rule object" := by decide
  refine Throws.bind (Throws.throwIf fun hbad => ?_) fun _ hgood => ?_
  · rw [hliteral, ← String.append_assoc]
    exact DocumentFault.reports (.notObject .rule hat (by simpa using hbad)) rfl
  have hobject : rule.isObject = true := by simpa using throwIf_passes hgood
  refine Throws.bind ?_ fun id _ => ?_
  · rw [ruleId]
    split
    · exact requireString_reports hat hobject "id"
    · exact .ok _
  refine (requireField_reports hat hobject "output").bind fun output houtput => ?_
  have houtput' := at?_member hat (field?_of_requireField houtput)
  have href : Throws (Reports doc index) (parseSignalRef output (placeText (inRule index []) ++ ".output") false) := by
    have hliteral : ".output" = "." ++ "output" := by decide
    have hreports : Throws (Reports doc index) (parseSignalRef output _ false) :=
      parseSignalRef_reports houtput' fun _ => rfl
    rwa [placeText_concat, PathStep.text, ← hliteral] at hreports
  refine href.bind fun _ _ => ?_
  refine (requireField_reports hat hobject "condition").bind fun condition hcondition => ?_
  have hcondition' := at?_member hat (field?_of_requireField hcondition)
  have hnode : Throws (Reports doc index)
      (parseConditionNode period condition (placeText (inRule index []) ++ ".condition")) := by
    have hliteral : ".condition" = "." ++ "condition" := by decide
    have hreports := parseConditionNode_reports doc period condition index _ hcondition'
    rwa [placeText_concat, PathStep.text, ← hliteral] at hreports
  exact hnode.bind fun _ _ => .ok _

end

/-! ### Documents -/

theorem parseRules_concat {period : Int64} {js : List Json} {i : Nat} {done : List Rule}
    (hdone : parseRules period js i = .ok done) {j : Json} {rule : Rule}
    (hrule : parseRule period j (i + js.length) = .ok rule) :
    parseRules period (js ++ [j]) i = .ok (done ++ [rule]) := by
  induction js generalizing i done with
  | nil =>
    obtain rfl := Except.ok.inj hdone
    rw [List.length_nil, Nat.add_zero] at hrule
    rw [List.nil_append, parseRules, hrule]
    rfl
  | cons k js ih =>
    rw [parseRules] at hdone
    cases hk : parseRule period k i with
    | error e =>
      rw [hk] at hdone
      cases hdone
    | ok first =>
      rw [hk, ok_bind] at hdone
      cases hjs : parseRules period js (i + 1) with
      | error e =>
        rw [hjs] at hdone
        cases hdone
      | ok later =>
        rw [hjs] at hdone
        obtain rfl := Except.ok.inj hdone
        have hindex : i + (k :: js).length = i + 1 + js.length := by
          rw [List.length_cons]
          omega
        rw [List.cons_append, parseRules, hk, ok_bind, ih hjs (hindex ▸ hrule)]
        rfl

/-- The first rule with an error is reported. -/
theorem parseRules_reports {doc : Json} {all : List Json} {period : Int64} {e : Exception}
    (hrules : doc.field? "rules" = some (.array all)) {js : List Json} {i : Nat} (hjs : all.drop i = js)
    {done : List Rule} (hdone : parseRules period (all.take i) 0 = .ok done)
    (h : parseRules period js i = .error e) :
    ∃ index, Reports doc index e ∧ ∃ before, parseRules period (all.take index) 0 = .ok before := by
  induction js generalizing i done with
  | nil => cases h
  | cons j js ih =>
    have hrule : all[i]? = some j := by
      rw [← List.head?_drop, hjs]
      rfl
    have htail : all.drop (i + 1) = js := by
      rw [← List.tail_drop, hjs]
      rfl
    rw [parseRules] at h
    cases hparse : parseRule period j i with
    | error e' =>
      rw [hparse] at h
      obtain rfl := Except.error.inj h
      exact ⟨i, parseRule_reports period (at?_inRule hrules hrule) e' hparse, done, hdone⟩
    | ok rule =>
      rw [hparse, ok_bind] at h
      have hlater : parseRules period js (i + 1) = .error e := by
        cases hl : parseRules period js (i + 1) with
        | error e' =>
          rw [hl] at h
          obtain rfl := Except.error.inj h
          rfl
        | ok later =>
          rw [hl] at h
          cases h
      obtain ⟨hlt, _⟩ := List.getElem?_eq_some_iff.mp hrule
      have hlength : 0 + (all.take i).length = i := by
        rw [List.length_take]
        omega
      have htake : all.take (i + 1) = all.take i ++ [j] := by
        rw [List.take_add_one, hrule]
        rfl
      have hdone' := parseRules_concat hdone (hlength.symm ▸ hparse)
      rw [← htake] at hdone'
      exact ih htail hdone' hlater

theorem fromJson_rules {rules : List Json} {period : Int64} {parsed : List Rule}
    (h : parseRules period rules 0 = .ok parsed) :
    LogicProgram.fromJson (.object [("rules", .array rules)]) period = .ok ⟨parsed⟩ := by
  show (parseRules period rules 0 >>= _) = _
  rw [h]
  rfl

/-- An error of the parser names a place of the document and is true of it; if
the place is in a rule, the rules before that one are accepted. -/
theorem fromJson_error {doc : Json} {period : Int64} {e : Exception}
    (h : LogicProgram.fromJson doc period = .error e) : ∃ place text, DocumentFault doc place text ∧
      e = .logicParseError (placeText place ++ ": " ++ text) ∧
      ∀ index path, place = inRule index path → ∃ rules prog, doc.field? "rules" = some (.array rules) ∧
        LogicProgram.fromJson (.object [("rules", .array (rules.take index))]) period = .ok prog := by
  have houtside : ∀ index path, ¬ [] = inRule index path := fun _ _ => (List.cons_ne_nil _ _).symm
  by_cases hobject : doc.isObject = true
  · cases hfield : doc.field? "rules" with
    | none =>
      have hmissing : e = .logicParseError ("document" ++ ": missing required field '" ++ "rules" ++ "'") := by
        rw [LogicProgram.fromJson, requireField_of_none _ hfield, hobject] at h
        exact (Except.error.inj h).symm
      exact ⟨[], _, .missing "rules" rfl hobject hfield, hmissing.trans (by decide),
        fun index path hin => absurd hin (houtside index path)⟩
    | some field =>
      have hat : doc.at? [.member "rules"] = some field := by simp [Json.at?, Json.child?, hfield]
      rw [LogicProgram.fromJson, requireField_of_field? _ hfield, hobject] at h
      cases field with
      | array rules =>
        have hparse : parseRules period rules 0 = .error e := by
          cases hr : parseRules period rules 0 with
          | error e' =>
            simp only [throwIf, Bool.not_true, Bool.false_eq_true, if_false, ok_bind, hr] at h
            obtain rfl := Except.error.inj h
            rfl
          | ok parsed =>
            simp only [throwIf, Bool.not_true, Bool.false_eq_true, if_false, ok_bind, hr] at h
            cases h
        obtain ⟨index, ⟨path, text, hfault, htext⟩, before, hbefore⟩ :=
          @parseRules_reports doc rules period e hfield rules 0 rfl [] rfl hparse
        refine ⟨inRule index path, text, hfault, htext, fun index' path' hsame => ?_⟩
        obtain rfl : index = index' := by simpa [inRule] using (List.cons.inj (List.cons.inj hsame).2).1
        exact ⟨rules, ⟨before⟩, rfl, fromJson_rules hbefore⟩
      | _ =>
        have hplace : e = .logicParseError "document.rules: expected an array" := (Except.error.inj h).symm
        refine ⟨[.member "rules"], _, .notArray hat fun es hes => Json.noConfusion hes,
          hplace.trans (by decide), fun index path hin => ?_⟩
        simp [inRule] at hin
  · have hno : doc.isObject = false := Bool.not_eq_true _ ▸ hobject
    have hplace : e = .logicParseError "document: expected a JSON object" := by
      rw [LogicProgram.fromJson, hno] at h
      exact (Except.error.inj h).symm
    exact ⟨[], _, .notObject .document rfl hno, hplace.trans (by decide),
      fun index path hin => absurd hin (houtside index path)⟩

def copyingRule : Json :=
  .object [("condition", .object [("area", .string "I"), ("bit", .numberUnsigned 0),
      ("byte", .numberUnsigned 0), ("type", .string "INPUT")]),
    ("output", .object [("area", .string "Q"), ("bit", .numberUnsigned 0), ("byte", .numberUnsigned 0)])]

/-- A good rule and one that writes to `%I`. -/
def secondRuleBad : Json :=
  .object [("rules", .array [copyingRule, .object [("output", .object [("area", .string "I")])]])]

theorem parseRule_copyingRule : parseRule 100 copyingRule 0 =
    .ok ⟨"rules[0]", ⟨none, .output, 0, 0⟩, .signalRefNode ⟨none, .input, 0, 0⟩⟩ := by
  show (parseConditionNode 100 _ "rules[0].condition" >>= fun condition => _) = _
  rw [parseConditionNode]
  rfl

theorem fromJson_error_secondRule : ∃ place text, DocumentFault secondRuleBad place text ∧
    Exception.logicParseError
      "rules[1].output.area: rule outputs cannot target %I (reserved for driver writes)" =
        .logicParseError (placeText place ++ ": " ++ text) ∧
    ∀ index path, place = inRule index path → ∃ rules prog,
      secondRuleBad.field? "rules" = some (.array rules) ∧
      LogicProgram.fromJson (.object [("rules", .array (rules.take index))]) 100 = .ok prog := by
  have herror : LogicProgram.fromJson secondRuleBad 100 = .error (.logicParseError
      "rules[1].output.area: rule outputs cannot target %I (reserved for driver writes)") := by
    show (parseRules 100 [copyingRule, _] 0 >>= _) = _
    rw [parseRules, parseRule_copyingRule]
    rfl
  exact fromJson_error herror

end Openaslc
