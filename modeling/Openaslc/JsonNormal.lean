import Openaslc.LogicParser

/-! The form of the integers of a JSON value: `dump` writes a nonnegative signed
number as it writes an unsigned one, and the parser does not tell them apart. -/

namespace Openaslc

namespace Json

mutual

/-- Every nonnegative integer in its unsigned form. -/
def normal : Json → Json
  | .numberInteger value => if 0 ≤ value then .numberUnsigned value.toUInt64 else .numberInteger value
  | .array elements => .array (normalElements elements)
  | .object members => .object (normalMembers members)
  | j => j

def normalElements : List Json → List Json
  | [] => []
  | element :: rest => element.normal :: normalElements rest

def normalMembers : List (String × Json) → List (String × Json)
  | [] => []
  | (key, value) :: rest => (key, value.normal) :: normalMembers rest

end

theorem lookup_normalMembers (members : List (String × Json)) (key : String) :
    (normalMembers members).lookup key = (members.lookup key).map normal := by
  induction members with
  | nil => rfl
  | cons member rest ih =>
    obtain ⟨k, value⟩ := member
    rw [normalMembers, List.lookup_cons, List.lookup_cons, ih]
    cases key == k <;> rfl

theorem normal_cases (j : Json) : (∃ v v', j = .numberInteger v ∧ j.normal = .numberUnsigned v' ∧
    v'.toInt64 = v) ∨ (∃ es, j = .array es ∧ j.normal = .array (normalElements es)) ∨
    (∃ ms, j = .object ms ∧ j.normal = .object (normalMembers ms)) ∨
    ((∀ es, j ≠ .array es) ∧ (∀ ms, j ≠ .object ms) ∧ j.normal = j) := by
  cases j with
  | numberInteger value =>
    by_cases hv : 0 ≤ value
    · exact .inl ⟨value, value.toUInt64, rfl, if_pos hv, rfl⟩
    · exact .inr (.inr (.inr ⟨nofun, nofun, if_neg hv⟩))
  | array es => exact .inr (.inl ⟨es, rfl, by rw [normal]⟩)
  | object ms => exact .inr (.inr (.inl ⟨ms, rfl, by rw [normal]⟩))
  | _ => exact .inr (.inr (.inr ⟨nofun, nofun, by rw [normal] <;> nofun⟩))

theorem field?_normal (j : Json) (key : String) : j.normal.field? key = (j.field? key).map normal := by
  rcases normal_cases j with ⟨v, v', rfl, hn, _⟩ | ⟨es, rfl, hn⟩ | ⟨ms, rfl, hn⟩ | ⟨_, hobject, hn⟩
  · rw [hn]
    rfl
  · rw [hn]
    rfl
  · rw [hn]
    exact lookup_normalMembers ms key
  · rw [hn]
    cases j with
    | object ms => exact absurd rfl (hobject ms)
    | _ => rfl

theorem field?_normal_none {j : Json} {key : String} (h : j.field? key = none) :
    j.normal.field? key = none := by
  rw [field?_normal, h]
  rfl

theorem field?_normal_some {j field : Json} {key : String} (h : j.field? key = some field) :
    j.normal.field? key = some field.normal := by
  rw [field?_normal, h]
  rfl

theorem isObject_normal (j : Json) : j.normal.isObject = j.isObject := by
  rcases normal_cases j with ⟨v, v', rfl, hn, _⟩ | ⟨es, rfl, hn⟩ | ⟨ms, rfl, hn⟩ | ⟨_, _, hn⟩
  · rw [hn]
    rfl
  · rw [hn]
    rfl
  · rw [hn]
    rfl
  · rw [hn]

theorem contains_normal (j : Json) (key : String) : j.normal.contains key = j.contains key := by
  rw [contains, contains, field?_normal, Option.isSome_map]

theorem getInt64?_normal (j : Json) : j.normal.getInt64? = j.getInt64? := by
  rcases normal_cases j with ⟨v, v', rfl, hn, hv⟩ | ⟨es, rfl, hn⟩ | ⟨ms, rfl, hn⟩ | ⟨_, _, hn⟩
  · rw [hn, getInt64?, getInt64?, hv]
  · rw [hn]
    rfl
  · rw [hn]
    rfl
  · rw [hn]

end Json

/-! ### The parser -/

open Json

theorem requireField_normal (j : Json) (key path : String) :
    requireField j.normal key path = (requireField j key path).map normal := by
  cases hf : j.field? key with
  | none =>
    have hn := field?_normal_none hf
    rw [requireField_of_none path hf, requireField_of_none path hn]
    rfl
  | some field =>
    have hn := field?_normal_some hf
    rw [requireField_of_field? path hf, requireField_of_field? path hn]
    rfl

/-- What follows a field of the value does not depend on its form. -/
theorem requireField_bind_normal {α : Type} {j : Json} {key path : String} {f g : Json → Except Exception α}
    (h : ∀ field, j.field? key = some field → f field.normal = g field) :
    requireField j.normal key path >>= f = requireField j key path >>= g := by
  rw [requireField_normal]
  cases hf : requireField j key path with
  | error e => rfl
  | ok field => exact h field (field?_of_requireField hf)

theorem requireInt_normal (j : Json) (key path : String) :
    requireInt j.normal key path = requireInt j key path :=
  requireField_bind_normal fun field _ => by rw [getInt64?_normal]

theorem requireString_normal (j : Json) (key path : String) :
    requireString j.normal key path = requireString j key path := by
  refine requireField_bind_normal fun field _ => ?_
  rcases normal_cases field with ⟨v, v', rfl, hn, _⟩ | ⟨es, rfl, hn⟩ | ⟨ms, rfl, hn⟩ | ⟨_, _, hn⟩
  all_goals rw [hn]

theorem rejectNode_normal (j : Json) (path : String) : rejectNode j.normal path = rejectNode j path := by
  rw [rejectNode, rejectNode, contains_normal]
  split
  · next hc =>
    obtain ⟨field, hf⟩ := Option.isSome_iff_exists.mp hc
    have hn := field?_normal_some hf
    rw [atKey_of_field? hf, atKey_of_field? hn]
    rcases normal_cases field with ⟨v, v', rfl, hn, _⟩ | ⟨es, rfl, hn⟩ | ⟨ms, rfl, hn⟩ | ⟨_, _, hn⟩
    · rw [hn]
      rfl
    · rw [hn]
      rfl
    · rw [hn]
      rfl
    · rw [hn]
  · rfl

theorem parseSignalRef_normal (j : Json) (path : String) (allowInputArea : Bool) :
    parseSignalRef j.normal path allowInputArea = parseSignalRef j path allowInputArea := by
  simp only [parseSignalRef, isObject_normal, rejectNode_normal, requireString_normal, requireInt_normal]

theorem requireChild_bind_normal {α : Type} {j : Json} {key path : String}
    {f : { field : Json // sizeOf field < sizeOf j.normal } → Except Exception α}
    {g : { field : Json // sizeOf field < sizeOf j } → Except Exception α}
    (h : ∀ field (hn : sizeOf field.normal < sizeOf j.normal) (hj : sizeOf field < sizeOf j),
      f ⟨field.normal, hn⟩ = g ⟨field, hj⟩) :
    requireChild j.normal key path >>= f = requireChild j key path >>= g := by
  cases hf : j.field? key with
  | none =>
    have hn := field?_normal_none hf
    rw [requireChild_of_none path hf, requireChild_of_none path hn]
    rfl
  | some field =>
    have hn := field?_normal_some hf
    rw [requireChild_of_field? path hf, requireChild_of_field? path hn]
    exact h field _ _

theorem parseInputs_normal {period : Int64} {es : List Json}
    (h : ∀ e ∈ es, ∀ path, parseConditionNode period e.normal path = parseConditionNode period e path)
    (i : Nat) (path : String) :
    parseInputs period (normalElements es) i path = parseInputs period es i path := by
  induction es generalizing i with
  | nil => rw [normalElements]
  | cons e es ih =>
    have hrest := ih (fun d hd => h d (List.mem_cons_of_mem _ hd)) (i + 1)
    rw [normalElements, parseInputs, parseInputs, h e List.mem_cons_self, hrest]

theorem parseBoolCombinator_normal {period : Int64} {j : Json}
    (h : ∀ e : Json, sizeOf e < sizeOf j → ∀ path,
      parseConditionNode period e.normal path = parseConditionNode period e path)
    (path : String) (isAnd : Bool) :
    parseBoolCombinator period j.normal path isAnd = parseBoolCombinator period j path isAnd := by
  rw [parseBoolCombinator, parseBoolCombinator]
  refine requireChild_bind_normal fun field hn hj => ?_
  rcases normal_cases field with ⟨v, v', rfl, hnf, _⟩ | ⟨es, rfl, hnf⟩ | ⟨ms, rfl, hnf⟩ |
    ⟨harray, _, hnf⟩
  · generalize (numberInteger v).normal = n at hn hnf
    subst hnf
    rfl
  · generalize (array es).normal = n at hn hnf
    subst hnf
    cases es with
    | nil => rfl
    | cons e es =>
      have hes : ∀ d ∈ e :: es, ∀ path,
          parseConditionNode period d.normal path = parseConditionNode period d path := by
        intro d hd
        have hd' := List.sizeOf_lt_of_mem hd
        simp only [Json.array.sizeOf_spec] at hj
        exact h d (by omega)
      have hinputs := parseInputs_normal hes 0 path
      rw [normalElements] at hinputs
      show (parseInputs period (e.normal :: normalElements es) 0 path >>= _) = _
      rw [hinputs]
  · generalize (object ms).normal = n at hn hnf
    subst hnf
    rfl
  · generalize field.normal = n at hn hnf
    subst hnf
    cases n with
    | array es => exact absurd rfl (harray es)
    | _ => rfl

theorem parseConditionNode_normal (period : Int64) (j : Json) (path : String) :
    parseConditionNode period j.normal path = parseConditionNode period j path := by
  induction hsize : sizeOf j using Nat.strong_induction_on generalizing j path with
  | h size ih =>
    have hchild : ∀ e : Json, sizeOf e < sizeOf j → ∀ path,
        parseConditionNode period e.normal path = parseConditionNode period e path :=
      fun e he path => ih (sizeOf e) (hsize ▸ he) e path rfl
    have hinput : ∀ {α : Type} (g : LogicNode → Except Exception α),
        (requireChild j.normal "input" path >>= fun c =>
          parseConditionNode period c.val (path ++ ".input") >>= g) =
        (requireChild j "input" path >>= fun c =>
          parseConditionNode period c.val (path ++ ".input") >>= g) := fun g =>
      requireChild_bind_normal fun field _ hj => by rw [hchild field hj]
    rw [parseConditionNode, parseConditionNode, isObject_normal, requireString_normal]
    simp only [parseSignalRef_normal, parseBoolCombinator_normal hchild, requireInt_normal]
    refine congrArg (throwIf _ _ >>= ·) (funext fun _ => congrArg (_ >>= ·) (funext fun type => ?_))
    split
    · rfl
    split
    · rfl
    split
    · rfl
    split
    · exact hinput _
    split
    · exact hinput _
    · rfl

theorem parseRule_normal (period : Int64) (j : Json) (index : Nat) :
    parseRule period j.normal index = parseRule period j index := by
  have hid : ∀ path, ruleId j.normal path = ruleId j path := fun path => by
    rw [ruleId, ruleId, contains_normal, requireString_normal]
  simp only [parseRule, isObject_normal, hid]
  refine congrArg (throwIf _ _ >>= ·) (funext fun _ => congrArg (_ >>= ·) (funext fun id => ?_))
  refine requireField_bind_normal fun output _ => ?_
  rw [parseSignalRef_normal]
  refine congrArg (_ >>= ·) (funext fun out => ?_)
  refine requireField_bind_normal fun condition _ => ?_
  rw [parseConditionNode_normal]

theorem parseRules_normal (period : Int64) (js : List Json) (index : Nat) :
    parseRules period (normalElements js) index = parseRules period js index := by
  induction js generalizing index with
  | nil => rfl
  | cons j js ih => rw [normalElements, parseRules, parseRules, parseRule_normal, ih]

theorem fromJson_normal (doc : Json) (period : Int64) :
    LogicProgram.fromJson doc.normal period = LogicProgram.fromJson doc period := by
  rw [LogicProgram.fromJson, LogicProgram.fromJson, isObject_normal]
  refine congrArg (throwIf _ _ >>= ·) (funext fun _ => ?_)
  refine requireField_bind_normal fun field _ => ?_
  rcases normal_cases field with ⟨v, v', rfl, hn, _⟩ | ⟨es, rfl, hn⟩ | ⟨ms, rfl, hn⟩ | ⟨_, _, hn⟩
  · rw [hn]
  · rw [hn]
    show (parseRules period (normalElements es) 0 >>= _) = _
    rw [parseRules_normal]
  · rw [hn]
  · rw [hn]

end Openaslc
