import Openaslc.Json
import Openaslc.LogicProgram

/-! The parser of logic documents. Children are fields of the value being
parsed, so every recursive call is on a smaller value. -/

namespace Openaslc

/-- `if (c) throw LogicParseError(what);` -/
def throwIf (c : Bool) (what : String) : Except Exception Unit :=
  if c then throw (.logicParseError what) else return ()

def parseArea (s path : String) : Except Exception MemoryArea :=
  if s = "I" then return .input
  else if s = "Q" then return .output
  else if s = "M" then return .memory
  else throw (.logicParseError
    (path ++ ": unknown area '" ++ s ++ "' (expected \"I\", \"Q\", or \"M\")"))

def isValidNodeUidFormat (s : String) : Bool :=
  (s.length == 2 || s.length == 4 || s.length == 8) && s.toList.all Char.isAlphanum

def requireField (j : Json) (key path : String) : Except Exception Json :=
  if !j.contains key then
    throw (.logicParseError (path ++ ": missing required field '" ++ key ++ "'"))
  else j.atKey key

def requireInt (j : Json) (key path : String) : Except Exception Int64 := do
  let field ← requireField j key path
  match field.getInt64? with
  | some value => return value
  | none => throw (.logicParseError (path ++ "." ++ key ++ ": expected an integer"))

def requireString (j : Json) (key path : String) : Except Exception String := do
  let field ← requireField j key path
  match field with
  | .string value => return value
  | _ => throw (.logicParseError (path ++ "." ++ key ++ ": expected a string"))

def rejectNode (j : Json) (path : String) : Except Exception Unit :=
  if j.contains "node" then do
    let nodeField ← j.atKey "node"
    match nodeField with
    | .string nodeId =>
      throwIf (!isValidNodeUidFormat nodeId) (path ++ ".node: '" ++ nodeId ++
        "' is not a valid node UID (expected 2, 4, or 8 alphanumeric characters)")
      throw (.logicParseError (path ++ ".node: remote signal references are not supported yet -- " ++
        "hive IO forwarding is a future feature; omit 'node' to reference this board's own " ++
        "memory map"))
    | _ => throw (.logicParseError (path ++ ".node: expected a string"))
  else return ()

def parseSignalRef (j : Json) (path : String) (allowInputArea : Bool) :
    Except Exception SignalRef := do
  throwIf (!j.isObject) (path ++ ": expected a signal reference object")
  rejectNode j path
  let areaStr ← requireString j "area" path
  let area ← parseArea areaStr (path ++ ".area")
  throwIf (!allowInputArea && area == .input)
    (path ++ ".area: rule outputs cannot target %I (reserved for driver writes)")
  let byte ← requireInt j "byte" path
  throwIf (byte < 0 || byte.toUInt64 ≥ UInt64.ofNat (getSize area))
    (path ++ ".byte: " ++ toString byte.toInt ++ " is out of range for this area (0.." ++
      toString (getSize area - 1) ++ ")")
  let bit ← requireInt j "bit" path
  throwIf (bit < 0 || bit > 7) (path ++ ".bit: " ++ toString bit.toInt ++ " must be 0..7")
  return ⟨none, area, byte.toUInt64, bit.toUInt64.toUInt8⟩

theorem requireField_of_field? {j field : Json} {key : String} (path : String)
    (h : j.field? key = some field) : requireField j key path = .ok field := by
  have hc : j.contains key = true := by simp [Json.contains, h]
  simp [requireField, hc, Json.atKey_of_field? h]

theorem requireField_of_none {j : Json} {key : String} (path : String) (h : j.field? key = none) :
    requireField j key path =
      .error (.logicParseError (path ++ ": missing required field '" ++ key ++ "'")) := by
  have hc : j.contains key = false := by simp [Json.contains, h]
  simp [requireField, hc, throw, throwThe, MonadExceptOf.throw]

theorem field?_of_requireField {j field : Json} {key path : String}
    (h : requireField j key path = .ok field) : j.field? key = some field := by
  cases hf : j.field? key with
  | none => rw [requireField_of_none path hf] at h; cases h
  | some f =>
    rw [requireField_of_field? path hf] at h
    cases h
    rfl

theorem sizeOf_requireField_lt {j field : Json} {key path : String}
    (h : requireField j key path = .ok field) : sizeOf field < sizeOf j :=
  Json.sizeOf_field?_lt (field?_of_requireField h)

/-- `require_field`, with the fact that a field is smaller than its object. -/
def requireChild (j : Json) (key path : String) :
    Except Exception { field : Json // sizeOf field < sizeOf j } :=
  match h : requireField j key path with
  | .ok field => .ok ⟨field, sizeOf_requireField_lt h⟩
  | .error e => .error e

theorem requireChild_of_field? {j field : Json} {key : String} (path : String)
    (h : j.field? key = some field) :
    requireChild j key path = .ok ⟨field, Json.sizeOf_field?_lt h⟩ := by
  have hr := requireField_of_field? path h
  unfold requireChild
  split
  · next f hf =>
    obtain rfl : f = field := by
      rw [hr] at hf
      cases hf
      rfl
    rfl
  · next e he =>
    rw [hr] at he
    cases he

theorem requireChild_of_none {j : Json} {key : String} (path : String) (h : j.field? key = none) :
    requireChild j key path =
      .error (.logicParseError (path ++ ": missing required field '" ++ key ++ "'")) := by
  have hr := requireField_of_none path h
  unfold requireChild
  split
  · next f hf =>
    rw [hr] at hf
    cases hf
  · next e he =>
    rw [hr] at he
    cases he
    rfl

mutual

def parseBoolCombinator (period : Int64) (j : Json) (path : String) (isAnd : Bool) :
    Except Exception LogicNode := do
  let ⟨inputsField, hlt⟩ ← requireChild j "inputs" path
  match inputsField, hlt with
  | .array (first :: rest), _hlt =>
    let children ← parseInputs period (first :: rest) 0 path
    return if isAnd then .andNode children else .orNode children
  | _, _ => throw (.logicParseError (path ++ ".inputs: expected a non-empty array"))
termination_by (sizeOf j, 0)
decreasing_by
  simp_all only [Json.array.sizeOf_spec, Prod.lex_def]
  omega

def parseInputs (period : Int64) (inputs : List Json) (i : Nat) (path : String) :
    Except Exception (List LogicNode) :=
  match inputs with
  | [] => return []
  | input :: rest => do
    let child ← parseConditionNode period input (path ++ ".inputs[" ++ toString i ++ "]")
    let children ← parseInputs period rest (i + 1) path
    return child :: children
termination_by (sizeOf inputs, 0)
decreasing_by
  all_goals
    simp only [List.cons.sizeOf_spec, Prod.lex_def]
    omega

def parseConditionNode (period : Int64) (j : Json) (path : String) :
    Except Exception LogicNode := do
  throwIf (!j.isObject) (path ++ ": expected a condition node object")
  let type ← requireString j "type" path
  if type = "INPUT" then
    let ref ← parseSignalRef j path true
    return .signalRefNode ref
  else if type = "AND" then parseBoolCombinator period j path true
  else if type = "OR" then parseBoolCombinator period j path false
  else if type = "NOT" then
    let ⟨input, _hlt⟩ ← requireChild j "input" path
    let child ← parseConditionNode period input (path ++ ".input")
    return .notNode child
  else if type = "TON_TIMER" then
    let ⟨input, _hlt⟩ ← requireChild j "input" path
    let child ← parseConditionNode period input (path ++ ".input")
    let presetMs ← requireInt j "preset_ms" path
    throwIf (presetMs < 0) (path ++ ".preset_ms: must be >= 0")
    return .tonTimerNode child presetMs.toUInt64 period.toUInt64 0
  else throw (.logicParseError (path ++ ".type: unknown node type '" ++ type ++ "'"))
termination_by (sizeOf j, 1)
decreasing_by
  all_goals first
    | exact Prod.Lex.right _ Nat.zero_lt_one
    | exact Prod.Lex.left _ _ _hlt

end

/-- The `id` of a rule, by default its path. -/
def ruleId (j : Json) (path : String) : Except Exception String :=
  if j.contains "id" then requireString j "id" path else return path

def parseRule (period : Int64) (j : Json) (index : Nat) : Except Exception Rule := do
  let path := "rules[" ++ toString index ++ "]"
  throwIf (!j.isObject) (path ++ ": expected a rule object")
  let id ← ruleId j path
  let outputField ← requireField j "output" path
  let output ← parseSignalRef outputField (path ++ ".output") false
  let conditionField ← requireField j "condition" path
  let condition ← parseConditionNode period conditionField (path ++ ".condition")
  return ⟨id, output, condition⟩

def parseRules (period : Int64) : List Json → Nat → Except Exception (List Rule)
  | [], _ => return []
  | j :: rest, index => do
    let rule ← parseRule period j index
    let rules ← parseRules period rest (index + 1)
    return rule :: rules

def LogicProgram.fromJson (doc : Json) (period : Int64) : Except Exception LogicProgram := do
  throwIf (!doc.isObject) "document: expected a JSON object"
  let rulesField ← requireField doc "rules" "document"
  match rulesField with
  | .array rules => do
    let rules ← parseRules period rules 0
    return ⟨rules⟩
  | _ => throw (.logicParseError "document.rules: expected an array")

end Openaslc
