import Openaslc.Json
import Openaslc.LogicProgram

/-! Rule lists as data. References exist, presets fit, AND and OR have an
input, and no output lies in %I, all by construction. -/

namespace Openaslc

inductive Condition
  | input (addr : SignalAddr)
  | and (first : Condition) (rest : List Condition)
  | or (first : Condition) (rest : List Condition)
  | not (input : Condition)
  | tonTimer (input : Condition) (presetMs : Fin (2 ^ 63))

structure RuleSpec where
  id : String
  output : SignalAddr
  writable : output.area ≠ .input
  condition : Condition

theorem output_ne_input : MemoryArea.output ≠ .input := by
  decide

theorem memory_ne_input : MemoryArea.memory ≠ .input := by
  decide

namespace Condition

theorem induction {P : Condition → Prop} (input : ∀ addr, P (.input addr))
    (and : ∀ first rest, P first → (∀ c ∈ rest, P c) → P (.and first rest))
    (or : ∀ first rest, P first → (∀ c ∈ rest, P c) → P (.or first rest))
    (not : ∀ c, P c → P (.not c))
    (tonTimer : ∀ c presetMs, P c → P (.tonTimer c presetMs)) (c : Condition) : P c :=
  Condition.rec input and or not tonTimer (by simp)
    (fun c cs hc hcs => by simpa [hc] using hcs) c

/-! ### The program object of a rule list -/

mutual

/-- The node built for a condition, with `count c` consecutive true cycles on
record in each timer over `c`. -/
def node (period : UInt64) (count : Condition → UInt64) : Condition → LogicNode
  | .input a => .signalRefNode a.ref
  | .and first rest => .andNode (node period count first :: nodes period count rest)
  | .or first rest => .orNode (node period count first :: nodes period count rest)
  | .not c => .notNode (node period count c)
  | .tonTimer c presetMs =>
    .tonTimerNode (node period count c) (UInt64.ofNat presetMs) period (count c)

def nodes (period : UInt64) (count : Condition → UInt64) : List Condition → List LogicNode
  | [] => []
  | c :: rest => node period count c :: nodes period count rest

end

@[simp] theorem nodes_eq_map (period : UInt64) (count : Condition → UInt64) (cs : List Condition) :
    nodes period count cs = cs.map (node period count) := by
  induction cs with
  | nil => rfl
  | cons c cs ih => rw [nodes, ih, List.map_cons]

theorem valid_node (period : UInt64) (count : Condition → UInt64) (c : Condition) :
    (c.node period count).Valid := by
  induction c using Condition.induction with
  | input a =>
    intro r hr
    exact ⟨a, by simpa [node, LogicNode.refs] using hr⟩
  | and first rest hf hr =>
    rw [node, nodes_eq_map, LogicNode.valid_andNode]
    intro n hn
    rcases List.mem_cons.mp hn with rfl | hn
    · exact hf
    · obtain ⟨c, hc, rfl⟩ := List.mem_map.mp hn
      exact hr c hc
  | or first rest hf hr =>
    rw [node, nodes_eq_map, LogicNode.valid_orNode]
    intro n hn
    rcases List.mem_cons.mp hn with rfl | hn
    · exact hf
    · obtain ⟨c, hc, rfl⟩ := List.mem_map.mp hn
      exact hr c hc
  | not c ih => exact ih
  | tonTimer c presetMs ih => exact ih

theorem elapsed_node_zero (period : UInt64) (c : Condition) :
    ∀ n ∈ (c.node period fun _ => 0).elapsed, n = 0 := by
  induction c using Condition.induction with
  | input a => simp [node, LogicNode.elapsed]
  | and first rest hf hr =>
    simp only [node, LogicNode.elapsed, LogicNode.elapsedList_eq, nodes_eq_map, List.mem_flatMap,
      List.mem_cons, List.mem_map]
    rintro n ⟨_, rfl | ⟨c, hc, rfl⟩, hn⟩
    · exact hf n hn
    · exact hr c hc n hn
  | or first rest hf hr =>
    simp only [node, LogicNode.elapsed, LogicNode.elapsedList_eq, nodes_eq_map, List.mem_flatMap,
      List.mem_cons, List.mem_map]
    rintro n ⟨_, rfl | ⟨c, hc, rfl⟩, hn⟩
    · exact hf n hn
    · exact hr c hc n hn
  | not c ih => exact ih
  | tonTimer c presetMs ih =>
    intro n hn
    rcases List.mem_cons.mp hn with hz | hn
    · exact hz
    · exact ih n hn

end Condition

def RuleSpec.rule (r : RuleSpec) (period : UInt64) (count : Condition → UInt64) : Rule :=
  ⟨r.id, r.output.ref, r.condition.node period count⟩

theorem RuleSpec.valid_rule (r : RuleSpec) (period : UInt64) (count : Condition → UInt64) :
    (r.rule period count).Valid :=
  ⟨Condition.valid_node period count r.condition, r.output, rfl, r.writable⟩

def LogicProgram.ofSpecs (rules : List RuleSpec) (period : Int64) : LogicProgram :=
  ⟨rules.map fun r => r.rule period.toUInt64 fun _ => 0⟩

theorem LogicProgram.valid_ofSpecs (rules : List RuleSpec) (period : Int64) :
    (ofSpecs rules period).Valid := by
  intro r hr
  obtain ⟨s, _, rfl⟩ := List.mem_map.mp hr
  exact s.valid_rule _ _

theorem LogicProgram.timersZero_ofSpecs (rules : List RuleSpec) (period : Int64) :
    (ofSpecs rules period).TimersZero := by
  intro r hr
  obtain ⟨s, _, rfl⟩ := List.mem_map.mp hr
  exact s.condition.elapsed_node_zero _

/-! ### Which document a rule list is written as -/

def MemoryArea.letter : MemoryArea → String
  | .input => "I"
  | .output => "Q"
  | .memory => "M"

theorem MemoryArea.letter_injective : Function.Injective MemoryArea.letter := by
  intro a b h
  cases a <;> cases b <;> first | rfl | exact absurd h (by decide)

/-- The field holds an integer with this mathematical value. -/
def Json.HasInt (j : Json) (key : String) (v : Int) : Prop :=
  ∃ field, j.field? key = some field ∧ field.integerValue? = some v

theorem Json.HasInt.unique {j : Json} {key : String} {v w : Int} (hv : j.HasInt key v)
    (hw : j.HasInt key w) : v = w := by
  obtain ⟨f, hf, hfv⟩ := hv
  obtain ⟨g, hg, hgw⟩ := hw
  obtain rfl : f = g := by simpa [hf] using hg
  simpa [hfv] using hgw

def SignalAddr.Denoted (a : SignalAddr) (j : Json) : Prop :=
  j.field? "node" = none ∧ j.field? "area" = some (.string a.area.letter) ∧
    j.HasInt "byte" a.byte.val ∧ j.HasInt "bit" a.bit.val

mutual

def Condition.Denoted : Condition → Json → Prop
  | .input a, j => j.field? "type" = some (.string "INPUT") ∧ a.Denoted j
  | .and first rest, j => j.field? "type" = some (.string "AND") ∧
    ∃ e es, j.field? "inputs" = some (.array (e :: es)) ∧ first.Denoted e ∧ DenotedAll rest es
  | .or first rest, j => j.field? "type" = some (.string "OR") ∧
    ∃ e es, j.field? "inputs" = some (.array (e :: es)) ∧ first.Denoted e ∧ DenotedAll rest es
  | .not c, j => j.field? "type" = some (.string "NOT") ∧
    ∃ e, j.field? "input" = some e ∧ c.Denoted e
  | .tonTimer c presetMs, j => j.field? "type" = some (.string "TON_TIMER") ∧
    (∃ e, j.field? "input" = some e ∧ c.Denoted e) ∧ j.HasInt "preset_ms" presetMs.val

def Condition.DenotedAll : List Condition → List Json → Prop
  | [], es => es = []
  | c :: cs, es => ∃ e es', es = e :: es' ∧ c.Denoted e ∧ DenotedAll cs es'

end

/-- Element `index` of the `rules` array is this rule. -/
def RuleSpec.Denoted (r : RuleSpec) (index : Nat) (j : Json) : Prop :=
  j.isObject = true ∧
    (match j.field? "id" with
      | none => r.id = "rules[" ++ toString index ++ "]"
      | some field => field = .string r.id) ∧
    (∃ field, j.field? "output" = some field ∧ r.output.Denoted field) ∧
    ∃ field, j.field? "condition" = some field ∧ r.condition.Denoted field

def RulesDenoted : List RuleSpec → Nat → List Json → Prop
  | [], _, js => js = []
  | r :: rs, index, js =>
    ∃ j js', js = j :: js' ∧ r.Denoted index j ∧ RulesDenoted rs (index + 1) js'

/-- The grammar of logic documents: `doc` is an object whose `rules` array is
this rule list. -/
def DocumentDenotes (doc : Json) (rules : List RuleSpec) : Prop :=
  ∃ js, doc.field? "rules" = some (.array js) ∧ RulesDenoted rules 0 js

/-! ### A document denotes at most one rule list -/

theorem SignalAddr.Denoted.unique {a b : SignalAddr} {j : Json} (ha : a.Denoted j)
    (hb : b.Denoted j) : a = b := by
  obtain ⟨_, harea, hbyte, hbit⟩ := ha
  obtain ⟨_, harea', hbyte', hbit'⟩ := hb
  have hl : a.area.letter = b.area.letter := by simpa [harea] using harea'
  have h₁ := hbyte.unique hbyte'
  have h₂ := hbit.unique hbit'
  exact SignalAddr.ext_iff'.mpr ⟨MemoryArea.letter_injective hl, by omega, Fin.ext (by omega)⟩

theorem Condition.DenotedAll.unique {cs : List Condition}
    (ih : ∀ c ∈ cs, ∀ c' j, c.Denoted j → c'.Denoted j → c = c') {cs' : List Condition}
    {es : List Json} (h : DenotedAll cs es) (h' : DenotedAll cs' es) : cs = cs' := by
  induction cs generalizing cs' es with
  | nil =>
    obtain rfl : es = [] := by simpa [DenotedAll] using h
    cases cs' with
    | nil => rfl
    | cons c cs' => simp [DenotedAll] at h'
  | cons c cs ihcs =>
    obtain ⟨e, es, rfl, hc, hcs⟩ := h
    cases cs' with
    | nil => simp [DenotedAll] at h'
    | cons c' cs' =>
      obtain ⟨e', es', he, hc', hcs'⟩ := h'
      obtain ⟨rfl, rfl⟩ := List.cons.inj he
      rw [ih c List.mem_cons_self c' e hc hc',
        ihcs (fun d hd => ih d (List.mem_cons_of_mem _ hd)) hcs hcs']

theorem Condition.Denoted.unique {c c' : Condition} {j : Json} (h : c.Denoted j)
    (h' : c'.Denoted j) : c = c' := by
  induction c using Condition.induction generalizing c' j with
  | input a =>
    obtain ⟨ht, ha⟩ := h
    cases c' with
    | input b => rw [ha.unique h'.2]
    | _ => exact absurd (ht.symm.trans h'.1) (by simp)
  | and first rest ihf ihr =>
    obtain ⟨ht, e, es, hin, hf, hr⟩ := h
    cases c' with
    | and first' rest' =>
      obtain ⟨_, e', es', hin', hf', hr'⟩ := h'
      obtain ⟨rfl, rfl⟩ : e = e' ∧ es = es' := by simpa [hin] using hin'
      rw [ihf hf hf', DenotedAll.unique (fun d hd _ _ => ihr d hd) hr hr']
    | _ => exact absurd (ht.symm.trans h'.1) (by simp)
  | or first rest ihf ihr =>
    obtain ⟨ht, e, es, hin, hf, hr⟩ := h
    cases c' with
    | or first' rest' =>
      obtain ⟨_, e', es', hin', hf', hr'⟩ := h'
      obtain ⟨rfl, rfl⟩ : e = e' ∧ es = es' := by simpa [hin] using hin'
      rw [ihf hf hf', DenotedAll.unique (fun d hd _ _ => ihr d hd) hr hr']
    | _ => exact absurd (ht.symm.trans h'.1) (by simp)
  | not c ih =>
    obtain ⟨ht, e, hin, hc⟩ := h
    cases c' with
    | not d =>
      obtain ⟨_, e', hin', hd⟩ := h'
      obtain rfl : e = e' := by simpa [hin] using hin'
      rw [ih hc hd]
    | _ => exact absurd (ht.symm.trans h'.1) (by simp)
  | tonTimer c presetMs ih =>
    obtain ⟨ht, ⟨e, hin, hc⟩, hp⟩ := h
    cases c' with
    | tonTimer d presetMs' =>
      obtain ⟨_, ⟨e', hin', hd⟩, hp'⟩ := h'
      obtain rfl : e = e' := by simpa [hin] using hin'
      have hv := hp.unique hp'
      rw [ih hc hd, Fin.ext (by omega : presetMs.val = presetMs'.val)]
    | _ => exact absurd (ht.symm.trans h'.1) (by simp)

theorem RuleSpec.Denoted.unique {r r' : RuleSpec} {index : Nat} {j : Json}
    (h : r.Denoted index j) (h' : r'.Denoted index j) : r = r' := by
  obtain ⟨_, hid, ⟨o, ho, hoa⟩, c, hc, hcd⟩ := h
  obtain ⟨_, hid', ⟨o', ho', hoa'⟩, c', hc', hcd'⟩ := h'
  obtain rfl : o = o' := by simpa [ho] using ho'
  obtain rfl : c = c' := by simpa [hc] using hc'
  have he : r.id = r'.id := by
    cases hf : j.field? "id" with
    | none =>
      simp only [hf] at hid hid'
      exact hid.trans hid'.symm
    | some field =>
      simp only [hf] at hid hid'
      exact Json.string.inj (hid.symm.trans hid')
  obtain ⟨id, output, writable, condition⟩ := r
  obtain ⟨id', output', writable', condition'⟩ := r'
  obtain rfl : id = id' := he
  obtain rfl : output = output' := hoa.unique hoa'
  obtain rfl : condition = condition' := hcd.unique hcd'
  rfl

theorem RulesDenoted.unique {rs rs' : List RuleSpec} {index : Nat} {js : List Json}
    (h : RulesDenoted rs index js) (h' : RulesDenoted rs' index js) : rs = rs' := by
  induction rs generalizing rs' index js with
  | nil =>
    obtain rfl : js = [] := h
    cases rs' with
    | nil => rfl
    | cons r rs' => simp [RulesDenoted] at h'
  | cons r rs ih =>
    obtain ⟨j, js, rfl, hr, hrs⟩ := h
    cases rs' with
    | nil => simp [RulesDenoted] at h'
    | cons r' rs' =>
      obtain ⟨j', js', he, hr', hrs'⟩ := h'
      obtain ⟨rfl, rfl⟩ := List.cons.inj he
      rw [hr.unique hr', ih hrs hrs']

theorem DocumentDenotes.unique {doc : Json} {rules rules' : List RuleSpec}
    (h : DocumentDenotes doc rules) (h' : DocumentDenotes doc rules') : rules = rules' := by
  obtain ⟨js, hjs, hr⟩ := h
  obtain ⟨js', hjs', hr'⟩ := h'
  obtain rfl : js = js' := by simpa [hjs] using hjs'
  exact hr.unique hr'

/-! ### The canonical document -/

def SignalAddr.members (a : SignalAddr) : List (String × Json) :=
  [("area", .string a.area.letter), ("bit", .numberUnsigned (UInt64.ofNat a.bit)),
    ("byte", .numberUnsigned (UInt64.ofNat a.byte))]

mutual

def Condition.toJson : Condition → Json
  | .input a => .object (a.members ++ [("type", .string "INPUT")])
  | .and first rest =>
    .object [("inputs", .array (toJson first :: toJsons rest)), ("type", .string "AND")]
  | .or first rest =>
    .object [("inputs", .array (toJson first :: toJsons rest)), ("type", .string "OR")]
  | .not c => .object [("input", toJson c), ("type", .string "NOT")]
  | .tonTimer c presetMs => .object [("input", toJson c),
    ("preset_ms", .numberUnsigned (UInt64.ofNat presetMs)), ("type", .string "TON_TIMER")]

def Condition.toJsons : List Condition → List Json
  | [] => []
  | c :: cs => toJson c :: toJsons cs

end

def RuleSpec.toJson (r : RuleSpec) : Json :=
  .object [("condition", r.condition.toJson), ("id", .string r.id),
    ("output", .object r.output.members)]

def canonicalDocument (rules : List RuleSpec) : Json :=
  .object [("rules", .array (rules.map RuleSpec.toJson))]

theorem hasInt_unsigned {j : Json} {key : String} {n : Nat} (hn : n < 2 ^ 63)
    (h : j.field? key = some (.numberUnsigned (UInt64.ofNat n))) : j.HasInt key n := by
  refine ⟨_, h, ?_⟩
  have hmod : n % 2 ^ 64 = n := Nat.mod_eq_of_lt (by omega)
  simp only [Json.integerValue?, UInt64.toNat_ofNat', hmod]

theorem SignalAddr.denoted_members (a : SignalAddr) (tail : List (String × Json))
    (ht : tail.lookup "node" = none) : a.Denoted (.object (a.members ++ tail)) := by
  have hbyte := a.byte.isLt
  have hsize := getSize_le a.area
  have hbit := a.bit.isLt
  refine ⟨?_, ?_, hasInt_unsigned (by omega) ?_, hasInt_unsigned (by omega) ?_⟩
  · simpa [Json.field?, members, List.lookup] using ht
  · simp [Json.field?, members]
  · simp [Json.field?, members, List.lookup]
  · simp [Json.field?, members, List.lookup]

theorem Condition.denotedAll_toJsons {cs : List Condition} (h : ∀ c ∈ cs, c.Denoted c.toJson) :
    DenotedAll cs (toJsons cs) := by
  induction cs with
  | nil => rfl
  | cons c cs ih =>
    exact ⟨_, _, rfl, h c List.mem_cons_self, ih fun d hd => h d (List.mem_cons_of_mem _ hd)⟩

theorem Condition.denoted_toJson (c : Condition) : c.Denoted c.toJson := by
  induction c using Condition.induction with
  | input a =>
    refine ⟨?_, a.denoted_members _ (by simp [List.lookup])⟩
    simp [toJson, Json.field?, SignalAddr.members, List.lookup]
  | and first rest hf hr =>
    refine ⟨?_, _, _, ?_, hf, denotedAll_toJsons hr⟩ <;> simp [toJson, Json.field?, List.lookup]
  | or first rest hf hr =>
    refine ⟨?_, _, _, ?_, hf, denotedAll_toJsons hr⟩ <;> simp [toJson, Json.field?, List.lookup]
  | not c ih => refine ⟨?_, _, ?_, ih⟩ <;> simp [toJson, Json.field?, List.lookup]
  | tonTimer c presetMs ih =>
    refine ⟨?_, ⟨_, ?_, ih⟩, hasInt_unsigned presetMs.isLt ?_⟩ <;>
      simp [toJson, Json.field?, List.lookup]

theorem RuleSpec.denoted_toJson (r : RuleSpec) (index : Nat) : r.Denoted index r.toJson := by
  have ho := r.output.denoted_members [] rfl
  rw [List.append_nil] at ho
  refine ⟨rfl, ?_, ⟨_, ?_, ho⟩, _, ?_, r.condition.denoted_toJson⟩ <;>
    simp [toJson, Json.field?, List.lookup]

theorem denotes_canonicalDocument (rules : List RuleSpec) :
    DocumentDenotes (canonicalDocument rules) rules := by
  refine ⟨_, rfl, ?_⟩
  generalize 0 = index
  induction rules generalizing index with
  | nil => rfl
  | cons r rs ih => exact ⟨_, _, rfl, r.denoted_toJson index, ih (index + 1)⟩

end Openaslc
