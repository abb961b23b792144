import Openaslc.JsonUtf8
import Openaslc.LogicGrammar

/-! What the errors of the parser say. They quote strings of the document, and
a document whose strings are UTF-8 is refused in UTF-8. -/

namespace Openaslc

theorem ValidUtf8.append {s t : String} (hs : ValidUtf8 s) (ht : ValidUtf8 t) : ValidUtf8 (s ++ t) := by
  rw [ValidUtf8, String.toList_append, List.map_append]
  exact Utf8.Valid.append hs ht

def ascii (s : String) : Bool := s.toList.all fun c => c.toNat ≤ 0x7F

theorem ValidUtf8.of_ascii {s : String} (h : ascii s = true) : ValidUtf8 s :=
  validUtf8_of_ascii (by simpa [ascii] using h)

theorem validUtf8_append_iff {s t : String} (hs : ascii s = true) :
    ValidUtf8 (s ++ t) ↔ ValidUtf8 t := by
  rw [ValidUtf8, String.toList_append, List.map_append]
  exact Utf8.valid_ascii_append_iff (by simpa [ascii] using hs)

theorem validUtf8_toString_nat (n : Nat) : ValidUtf8 (toString n) :=
  (graphic_toString_int n).validUtf8

theorem mem_memberTexts {members : List (String × Json)} {s : String} :
    s ∈ memberTexts members ↔ ∃ m ∈ members, s = m.1 ∨ s ∈ m.2.texts := by
  induction members with
  | nil => simp [memberTexts]
  | cons m rest ih =>
    obtain ⟨key, value⟩ := m
    simp [memberTexts, ih, or_assoc]

namespace Json.ValidText

theorem field {j field : Json} {key : String} (h : j.ValidText) (hf : j.field? key = some field) :
    field.ValidText := by
  cases j with
  | object members =>
    obtain ⟨l₁, l₂, hsplit, _⟩ := List.lookup_eq_some_iff.mp (show members.lookup key = some field from hf)
    intro s hs
    apply h s
    rw [Json.texts, mem_memberTexts]
    exact ⟨(key, field), by simp [hsplit], .inr hs⟩
  | _ => simp [Json.field?] at hf

theorem element {elements : List Json} {element : Json} (h : (Json.array elements).ValidText)
    (he : element ∈ elements) : element.ValidText := by
  intro s hs
  apply h s
  rw [Json.texts, mem_elementTexts]
  exact ⟨element, he, hs⟩

theorem string {s : String} (h : (Json.string s).ValidText) : ValidUtf8 s := h s (by simp [Json.texts])

end Json.ValidText

def SpeaksUtf8 {α : Type} (x : Except Exception α) : Prop :=
  ∀ what, x = .error (.logicParseError what) → ValidUtf8 what

namespace SpeaksUtf8

theorem ok {α : Type} (a : α) : SpeaksUtf8 (.ok a) := by
  intro what h
  cases h

theorem throw {α : Type} {what : String} (h : ValidUtf8 what) :
    SpeaksUtf8 (throw (.logicParseError what) : Except Exception α) := by
  intro text he
  cases he
  exact h

theorem bind {α β : Type} {x : Except Exception α} {f : α → Except Exception β} (hx : SpeaksUtf8 x)
    (hf : ∀ a, x = .ok a → SpeaksUtf8 (f a)) : SpeaksUtf8 (x >>= f) := by
  cases x with
  | error e =>
    intro what h
    exact hx what (by simpa [Bind.bind, Except.bind] using h)
  | ok a => exact hf a rfl

theorem throwIf (c : Bool) {what : String} (h : ValidUtf8 what) : SpeaksUtf8 (throwIf c what) := by
  cases c with
  | false => exact ok ()
  | true => exact throw h

end SpeaksUtf8

/-! ### The parser -/

theorem requireField_speaks (j : Json) {key path : String} (hkey : ascii key = true)
    (hpath : ValidUtf8 path) : SpeaksUtf8 (requireField j key path) := by
  cases hf : j.field? key with
  | some field =>
    rw [requireField_of_field? path hf]
    exact .ok field
  | none =>
    rw [requireField_of_none path hf]
    exact .throw (((hpath.append (.of_ascii (by decide))).append (.of_ascii hkey)).append
      (.of_ascii (by decide)))

theorem requireInt_speaks (j : Json) {key path : String} (hkey : ascii key = true)
    (hpath : ValidUtf8 path) : SpeaksUtf8 (requireInt j key path) := by
  refine (requireField_speaks j hkey hpath).bind fun field _ => ?_
  split
  · exact .ok _
  · exact .throw (((hpath.append (.of_ascii (by decide))).append (.of_ascii hkey)).append
      (.of_ascii (by decide)))

theorem requireString_speaks (j : Json) {key path : String} (hkey : ascii key = true)
    (hpath : ValidUtf8 path) : SpeaksUtf8 (requireString j key path) := by
  refine (requireField_speaks j hkey hpath).bind fun field _ => ?_
  split
  · exact .ok _
  · exact .throw (((hpath.append (.of_ascii (by decide))).append (.of_ascii hkey)).append
      (.of_ascii (by decide)))

theorem requireString_valid {j : Json} (hj : j.ValidText) {key path s : String}
    (h : requireString j key path = .ok s) : ValidUtf8 s := by
  rw [requireString] at h
  cases hf : requireField j key path with
  | error e => simp [hf, bind, Except.bind] at h
  | ok field =>
    simp only [hf, bind, Except.bind] at h
    split at h
    · cases h
      exact (hj.field (field?_of_requireField hf)).string
    · cases h

theorem rejectNode_speaks {j : Json} (hj : j.ValidText) {path : String} (hpath : ValidUtf8 path) :
    SpeaksUtf8 (rejectNode j path) := by
  unfold rejectNode
  split
  · next hcontains =>
    obtain ⟨field, hf⟩ := Option.isSome_iff_exists.mp hcontains
    rw [Json.atKey_of_field? hf, ok_bind]
    have hfield := hj.field hf
    split
    · refine (SpeaksUtf8.throwIf _ ?_).bind fun _ _ => .throw ?_
      · exact ((hpath.append (.of_ascii (by decide))).append hfield.string).append
          (.of_ascii (by decide))
      · exact ((hpath.append (.of_ascii (by decide))).append (.of_ascii (by decide))).append
          (.of_ascii (by decide))
    · exact .throw (hpath.append (.of_ascii (by decide)))
  · exact .ok ()

theorem parseArea_speaks {s path : String} (hs : ValidUtf8 s) (hpath : ValidUtf8 path) :
    SpeaksUtf8 (parseArea s path) := by
  unfold parseArea
  split
  · exact .ok _
  · split
    · exact .ok _
    · split
      · exact .ok _
      · exact .throw (((hpath.append (.of_ascii (by decide))).append hs).append
          (.of_ascii (by decide)))

theorem parseSignalRef_speaks {j : Json} (hj : j.ValidText) {path : String} (hpath : ValidUtf8 path)
    (allowInputArea : Bool) : SpeaksUtf8 (parseSignalRef j path allowInputArea) := by
  have hint : ∀ n : Int, ValidUtf8 (toString n) := fun n => (graphic_toString_int n).validUtf8
  refine (SpeaksUtf8.throwIf _ (hpath.append (.of_ascii (by decide)))).bind fun _ _ => ?_
  refine (rejectNode_speaks hj hpath).bind fun _ _ => ?_
  refine (requireString_speaks j (by decide) hpath).bind fun area harea => ?_
  have hvalid := requireString_valid hj harea
  refine (parseArea_speaks hvalid (hpath.append (.of_ascii (by decide)))).bind fun _ _ => ?_
  refine (SpeaksUtf8.throwIf _ (hpath.append (.of_ascii (by decide)))).bind fun _ _ => ?_
  refine (requireInt_speaks j (by decide) hpath).bind fun byte _ => ?_
  refine (SpeaksUtf8.throwIf _ ?_).bind fun _ _ => ?_
  · exact ((((hpath.append (.of_ascii (by decide))).append (hint _)).append
      (.of_ascii (by decide))).append (validUtf8_toString_nat _)).append (.of_ascii (by decide))
  refine (requireInt_speaks j (by decide) hpath).bind fun bit _ => ?_
  refine (SpeaksUtf8.throwIf _ ?_).bind fun _ _ => .ok _
  exact ((hpath.append (.of_ascii (by decide))).append (hint _)).append (.of_ascii (by decide))

theorem requireChild_speaks (j : Json) {key path : String} (hkey : ascii key = true)
    (hpath : ValidUtf8 path) : SpeaksUtf8 (requireChild j key path) := by
  have hfield := requireField_speaks j hkey hpath
  unfold requireChild
  split
  · exact .ok _
  · next e he =>
    intro what hwhat
    cases hwhat
    exact hfield what he

def ConditionSpeaks (period : Int64) (j : Json) : Prop :=
  ∀ path, ValidUtf8 path → SpeaksUtf8 (parseConditionNode period j path)

theorem parseInputs_speaks {period : Int64} {es : List Json}
    (h : ∀ e ∈ es, ConditionSpeaks period e) (i : Nat) {path : String} (hpath : ValidUtf8 path) :
    SpeaksUtf8 (parseInputs period es i path) := by
  induction es generalizing i with
  | nil =>
    rw [parseInputs]
    exact .ok []
  | cons e es ih =>
    have hindex : ValidUtf8 (path ++ ".inputs[" ++ toString i ++ "]") :=
      ((hpath.append (.of_ascii (by decide))).append (validUtf8_toString_nat i)).append
        (.of_ascii (by decide))
    rw [parseInputs]
    refine (h e List.mem_cons_self _ hindex).bind fun child _ => ?_
    exact (ih (fun d hd => h d (List.mem_cons_of_mem _ hd)) (i + 1)).bind fun _ _ => .ok _

theorem requireChild_field {j : Json} {key path : String} {child : { f : Json // sizeOf f < sizeOf j }}
    (h : requireChild j key path = .ok child) : j.field? key = some child.val := by
  unfold requireChild at h
  split at h
  · next field hfield =>
    cases h
    exact field?_of_requireField hfield
  · cases h

theorem parseBoolCombinator_speaks {period : Int64} {j : Json} (hj : j.ValidText)
    (h : ∀ e : Json, e.ValidText → sizeOf e < sizeOf j → ConditionSpeaks period e) {path : String}
    (hpath : ValidUtf8 path) (isAnd : Bool) :
    SpeaksUtf8 (parseBoolCombinator period j path isAnd) := by
  rw [parseBoolCombinator]
  refine (requireChild_speaks j (by decide) hpath).bind fun child hchild => ?_
  have hfield := hj.field (requireChild_field hchild)
  obtain ⟨field, hlt⟩ := child
  cases field with
  | array elements =>
    cases elements with
    | nil => exact .throw (hpath.append (.of_ascii (by decide)))
    | cons e es =>
      refine (parseInputs_speaks (fun d hd => ?_) 0 hpath).bind fun _ _ => .ok _
      have hd' := List.sizeOf_lt_of_mem hd
      simp only [Json.array.sizeOf_spec] at hlt
      exact h d (hfield.element hd) (by omega)
  | _ => exact .throw (hpath.append (.of_ascii (by decide)))

theorem parseConditionNode_speaks (period : Int64) {j : Json} (hj : j.ValidText) :
    ConditionSpeaks period j := by
  induction hn : sizeOf j using Nat.strong_induction_on generalizing j with
  | _ n ih =>
  have hchild : ∀ e : Json, e.ValidText → sizeOf e < sizeOf j → ConditionSpeaks period e :=
    fun e he hlt => ih (sizeOf e) (hn ▸ hlt) he rfl
  intro path hpath
  have hinput : ValidUtf8 (path ++ ".input") := hpath.append (.of_ascii (by decide))
  rw [parseConditionNode]
  refine (SpeaksUtf8.throwIf _ (hpath.append (.of_ascii (by decide)))).bind fun _ _ => ?_
  refine (requireString_speaks j (by decide) hpath).bind fun type htype => ?_
  split
  · exact (parseSignalRef_speaks hj hpath true).bind fun _ _ => .ok _
  split
  · exact parseBoolCombinator_speaks hj hchild hpath true
  split
  · exact parseBoolCombinator_speaks hj hchild hpath false
  split
  · refine (requireChild_speaks j (by decide) hpath).bind fun child hfield => ?_
    have hvalid := hj.field (requireChild_field hfield)
    exact (hchild child.val hvalid child.property _ hinput).bind fun _ _ => .ok _
  split
  · refine (requireChild_speaks j (by decide) hpath).bind fun child hfield => ?_
    have hvalid := hj.field (requireChild_field hfield)
    refine (hchild child.val hvalid child.property _ hinput).bind fun _ _ => ?_
    refine (requireInt_speaks j (by decide) hpath).bind fun _ _ => ?_
    exact (SpeaksUtf8.throwIf _ (hpath.append (.of_ascii (by decide)))).bind fun _ _ => .ok _
  · exact .throw (((hpath.append (.of_ascii (by decide))).append (requireString_valid hj htype)).append
      (.of_ascii (by decide)))

theorem parseRule_speaks (period : Int64) {j : Json} (hj : j.ValidText) (index : Nat) :
    SpeaksUtf8 (parseRule period j index) := by
  have hpath : ValidUtf8 ("rules[" ++ toString index ++ "]") :=
    ((ValidUtf8.of_ascii (by decide)).append (validUtf8_toString_nat index)).append
      (.of_ascii (by decide))
  refine (SpeaksUtf8.throwIf _ (hpath.append (.of_ascii (by decide)))).bind fun _ _ => ?_
  refine SpeaksUtf8.bind ?_ fun id _ => ?_
  · unfold ruleId
    split
    · exact requireString_speaks j (by decide) hpath
    · exact .ok _
  refine (requireField_speaks j (by decide) hpath).bind fun output houtput => ?_
  have hvalid := hj.field (field?_of_requireField houtput)
  refine (parseSignalRef_speaks hvalid (hpath.append (.of_ascii (by decide))) false).bind fun _ _ => ?_
  refine (requireField_speaks j (by decide) hpath).bind fun condition hcondition => ?_
  have hvalid' := hj.field (field?_of_requireField hcondition)
  exact (parseConditionNode_speaks period hvalid' _ (hpath.append (.of_ascii (by decide)))).bind
    fun _ _ => .ok _

theorem parseRules_speaks (period : Int64) {js : List Json} (h : ∀ j ∈ js, j.ValidText) (index : Nat) :
    SpeaksUtf8 (parseRules period js index) := by
  induction js generalizing index with
  | nil => exact .ok []
  | cons j js ih =>
    refine (parseRule_speaks period (h j List.mem_cons_self) index).bind fun _ _ => ?_
    exact (ih (fun k hk => h k (List.mem_cons_of_mem _ hk)) (index + 1)).bind fun _ _ => .ok _

theorem fromJson_speaks {doc : Json} (hdoc : doc.ValidText) (period : Int64) :
    SpeaksUtf8 (LogicProgram.fromJson doc period) := by
  refine (SpeaksUtf8.throwIf _ (.of_ascii (by decide))).bind fun _ _ => ?_
  refine (requireField_speaks doc (by decide) (.of_ascii (by decide))).bind fun rules hrules => ?_
  have hvalid := hdoc.field (field?_of_requireField hrules)
  split
  · exact (parseRules_speaks period (fun j hj => hvalid.element hj) 0).bind fun _ _ => .ok _
  · exact .throw (.of_ascii (by decide))

end Openaslc
