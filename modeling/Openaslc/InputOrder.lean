import Openaslc.ScanSafety

/-! Documents that differ in the order of the inputs of AND and OR nodes. Every
child is evaluated in every cycle, so the programs run alike. -/

namespace Openaslc

/-! ### The documents -/

namespace Json

/-- The object with the member of this key replaced. -/
def setField (j : Json) (key : String) (value : Json) : Json :=
  match j with
  | .object members => .object (members.map fun m => if m.1 = key then (key, value) else m)
  | j => j

theorem isObject_setField (j : Json) (key : String) (value : Json) :
    (j.setField key value).isObject = j.isObject := by
  cases j <;> rfl

theorem field?_setField_self {j old : Json} {key : String} (h : j.field? key = some old)
    (value : Json) : (j.setField key value).field? key = some value := by
  cases j with
  | object members =>
    have hl : members.lookup key = some old := h
    show (members.map fun m => if m.1 = key then (key, value) else m).lookup key = some value
    clear h
    induction members with
    | nil => simp at hl
    | cons m rest ih =>
      obtain ⟨k, v⟩ := m
      by_cases hk : k = key
      · simp [hk]
      · have hk' : (key == k) = false := by simpa using Ne.symm hk
        simp only [List.lookup_cons, hk'] at hl
        simp only [List.map_cons, if_neg hk, List.lookup_cons, hk']
        exact ih hl
  | _ => simp [field?] at h

theorem field?_setField_ne (j : Json) {key other : String} (h : other ≠ key) (value : Json) :
    (j.setField key value).field? other = j.field? other := by
  cases j with
  | object members =>
    show (members.map fun m => if m.1 = key then (key, value) else m).lookup other =
      members.lookup other
    induction members with
    | nil => rfl
    | cons m rest ih =>
      obtain ⟨k, v⟩ := m
      by_cases hk : k = key
      · have hother : (other == key) = false := by simpa using h
        simp [List.lookup_cons, hk, hother, ih]
      · simp [List.lookup_cons, hk, ih]
  | _ => rfl

def IsCombinator (j : Json) : Prop :=
  j.field? "type" = some (.string "AND") ∨ j.field? "type" = some (.string "OR")

def IsUnary (j : Json) : Prop :=
  j.field? "type" = some (.string "NOT") ∨ j.field? "type" = some (.string "TON_TIMER")

/-- The `inputs` arrays of AND and OR nodes permuted, at any depth. -/
inductive InputsPermuted : Json → Json → Prop
  | refl (j : Json) : InputsPermuted j j
  | trans {j k l : Json} (left : InputsPermuted j k) (right : InputsPermuted k l) : InputsPermuted j l
  | inputs {j : Json} {es es' : List Json} (combinator : j.IsCombinator)
      (field : j.field? "inputs" = some (.array es)) (perm : es.Perm es') :
      InputsPermuted j (j.setField "inputs" (.array es'))
  | element {j e e' : Json} {pre post : List Json} (combinator : j.IsCombinator)
      (field : j.field? "inputs" = some (.array (pre ++ e :: post))) (child : InputsPermuted e e') :
      InputsPermuted j (j.setField "inputs" (.array (pre ++ e' :: post)))
  | input {j e e' : Json} (unary : j.IsUnary) (field : j.field? "input" = some e)
      (child : InputsPermuted e e') : InputsPermuted j (j.setField "input" e')

/-- The same in the conditions of the rules of a document. -/
inductive ConditionsPermuted : Json → Json → Prop
  | refl (doc : Json) : ConditionsPermuted doc doc
  | trans {doc doc' doc'' : Json} (left : ConditionsPermuted doc doc')
      (right : ConditionsPermuted doc' doc'') : ConditionsPermuted doc doc''
  | condition {doc rule c c' : Json} {pre post : List Json}
      (rules : doc.field? "rules" = some (.array (pre ++ rule :: post)))
      (field : rule.field? "condition" = some c) (child : InputsPermuted c c') :
      ConditionsPermuted doc
        (doc.setField "rules" (.array (pre ++ rule.setField "condition" c' :: post)))

end Json

/-! ### The nodes -/

namespace LogicNode

def combine (isAnd : Bool) (inputs : List LogicNode) : LogicNode :=
  if isAnd then .andNode inputs else .orNode inputs

inductive Reordered : LogicNode → LogicNode → Prop
  | refl (n : LogicNode) : Reordered n n
  | trans {n m k : LogicNode} (left : Reordered n m) (right : Reordered m k) : Reordered n k
  | inputs {isAnd : Bool} {cs ds : List LogicNode} (perm : cs.Perm ds) :
      Reordered (combine isAnd cs) (combine isAnd ds)
  | child {isAnd : Bool} {c d : LogicNode} {pre post : List LogicNode} (child : Reordered c d) :
      Reordered (combine isAnd (pre ++ c :: post)) (combine isAnd (pre ++ d :: post))
  | notInput {c d : LogicNode} (child : Reordered c d) : Reordered (.notNode c) (.notNode d)
  | timerInput {c d : LogicNode} {presetMs periodMs elapsedCycles : UInt64} (child : Reordered c d) :
      Reordered (.tonTimerNode c presetMs periodMs elapsedCycles)
        (.tonTimerNode d presetMs periodMs elapsedCycles)

theorem tick_combine (mem : MemoryMap) (isAnd : Bool) (cs : List LogicNode) :
    (combine isAnd cs).tick mem = combine isAnd (cs.map (tick mem)) := by
  cases isAnd <;> simp [combine, tick]

theorem value_combine_perm {cs ds : List LogicNode} {mem : MemoryMap} (isAnd : Bool)
    (h : (cs.map (value mem)).Perm (ds.map (value mem))) :
    (combine isAnd cs).value mem = (combine isAnd ds).value mem := by
  cases isAnd
  · simpa [combine, value] using h.any_eq (f := id)
  · simpa [combine, value] using h.all_eq (f := id)

/-- One evaluation: the same value, and trees that still differ in order only. -/
theorem Reordered.step {n m : LogicNode} (h : Reordered n m) (mem : MemoryMap) :
    n.value mem = m.value mem ∧ Reordered (n.tick mem) (m.tick mem) := by
  induction h with
  | refl n => exact ⟨rfl, .refl _⟩
  | trans _ _ ihl ihr => exact ⟨ihl.1.trans ihr.1, ihl.2.trans ihr.2⟩
  | inputs perm =>
    rw [tick_combine, tick_combine]
    exact ⟨value_combine_perm _ (perm.map _), .inputs (perm.map _)⟩
  | child _ ih =>
    rw [tick_combine, tick_combine]
    refine ⟨value_combine_perm _ (by simp [ih.1]), ?_⟩
    simp only [List.map_append, List.map_cons]
    exact .child ih.2
  | notInput _ ih => exact ⟨by simp [value, ih.1], .notInput ih.2⟩
  | timerInput _ ih =>
    refine ⟨by simp [value, ih.1], ?_⟩
    simp only [tick, ih.1]
    exact .timerInput ih.2

end LogicNode

/-! ### What the permuted documents denote -/

namespace Condition

theorem denotedAll_iff {cs : List Condition} {es : List Json} :
    DenotedAll cs es ↔ List.Forall₂ Denoted cs es := by
  induction cs generalizing es with
  | nil => cases es <;> simp [DenotedAll]
  | cons c cs ih =>
    constructor
    · rintro ⟨e, es, rfl, hc, hcs⟩
      exact .cons hc (ih.mp hcs)
    · intro h
      cases h with
      | cons hc hcs => exact ⟨_, _, rfl, hc, ih.mpr hcs⟩

def combine (isAnd : Bool) (first : Condition) (rest : List Condition) : Condition :=
  if isAnd then .and first rest else .or first rest

theorem fresh_combine (period : Int64) (isAnd : Bool) (first : Condition) (rest : List Condition) :
    fresh period (combine isAnd first rest) =
      LogicNode.combine isAnd ((first :: rest).map (fresh period)) := by
  cases isAnd <;> simp [combine, LogicNode.combine, fresh, node]

theorem denoted_combine {isAnd : Bool} {first : Condition} {rest : List Condition} {j : Json} :
    (combine isAnd first rest).Denoted j ↔
      j.field? "type" = some (.string (if isAnd then "AND" else "OR")) ∧
        ∃ es, j.field? "inputs" = some (.array es) ∧ List.Forall₂ Denoted (first :: rest) es := by
  have hinputs : (∃ e es, j.field? "inputs" = some (.array (e :: es)) ∧ first.Denoted e ∧
      DenotedAll rest es) ↔ ∃ es, j.field? "inputs" = some (.array es) ∧
        List.Forall₂ Denoted (first :: rest) es := by
    constructor
    · rintro ⟨e, es, hin, hf, hr⟩
      exact ⟨e :: es, hin, .cons hf (denotedAll_iff.mp hr)⟩
    · rintro ⟨_, hin, h⟩
      cases h with
      | cons hf hr => exact ⟨_, _, hin, hf, denotedAll_iff.mpr hr⟩
  cases isAnd
  · exact and_congr_right fun _ => hinputs
  · exact and_congr_right fun _ => hinputs

theorem Denoted.of_combinator {c : Condition} {j : Json} (h : c.Denoted j) (hj : j.IsCombinator) :
    ∃ isAnd first rest, c = combine isAnd first rest := by
  cases c with
  | and first rest => exact ⟨true, first, rest, rfl⟩
  | or first rest => exact ⟨false, first, rest, rfl⟩
  | _ => rcases hj with hj | hj <;> exact absurd (hj.symm.trans h.1) (by simp)

theorem forall₂_middle {α β : Type} {R : α → β → Prop} {l : List α} {pre post : List β} {b : β}
    (h : List.Forall₂ R l (pre ++ b :: post)) : ∃ front a back, l = front ++ a :: back ∧
      List.Forall₂ R front pre ∧ R a b ∧ List.Forall₂ R back post := by
  induction pre generalizing l with
  | nil =>
    cases h with
    | cons ha hback => exact ⟨[], _, _, rfl, .nil, ha, hback⟩
  | cons c pre ih =>
    cases h with
    | cons hc hrest =>
      obtain ⟨front, a, back, rfl, hfront, ha, hback⟩ := ih hrest
      exact ⟨_ :: front, a, back, rfl, .cons hc hfront, ha, hback⟩

theorem Denoted.elements {isAnd : Bool} {first : Condition} {rest : List Condition} {j : Json}
    {es : List Json} (h : (combine isAnd first rest).Denoted j)
    (hfield : j.field? "inputs" = some (.array es)) : List.Forall₂ Denoted (first :: rest) es := by
  obtain ⟨_, es₀, hes₀, hall⟩ := denoted_combine.mp h
  obtain rfl : es = es₀ := by simpa [hfield] using hes₀
  exact hall

theorem Denoted.setInputs {isAnd : Bool} {first first' : Condition} {rest rest' : List Condition}
    {j : Json} {es es' : List Json} (h : (combine isAnd first rest).Denoted j)
    (hfield : j.field? "inputs" = some (.array es))
    (hall : List.Forall₂ Denoted (first' :: rest') es') :
    (combine isAnd first' rest').Denoted (j.setField "inputs" (.array es')) := by
  apply denoted_combine.mpr
  refine ⟨?_, es', Json.field?_setField_self hfield _, hall⟩
  rw [Json.field?_setField_ne _ (by decide)]
  exact (denoted_combine.mp h).1

theorem Denoted.permuted {c : Condition} {j j' : Json} (h : c.Denoted j)
    (hj : j.InputsPermuted j') (period : Int64) :
    ∃ c', c'.Denoted j' ∧ (fresh period c).Reordered (fresh period c') := by
  induction hj generalizing c with
  | refl j => exact ⟨c, h, .refl _⟩
  | trans _ _ ihl ihr =>
    obtain ⟨d, hd, hcd⟩ := ihl h
    obtain ⟨e, he, hde⟩ := ihr hd
    exact ⟨e, he, hcd.trans hde⟩
  | @inputs j es es' hcomb hfield hperm =>
    obtain ⟨isAnd, first, rest, rfl⟩ := h.of_combinator hcomb
    have hcomp : (Relation.Comp (List.Forall₂ Denoted) List.Perm) (first :: rest) es' :=
      ⟨es, h.elements hfield, hperm⟩
    rw [List.forall₂_comp_perm_eq_perm_comp_forall₂] at hcomp
    obtain ⟨cs, hcs, hall'⟩ := hcomp
    cases cs with
    | nil => simp at hcs
    | cons first' rest' =>
      refine ⟨combine isAnd first' rest', h.setInputs hfield hall', ?_⟩
      rw [fresh_combine, fresh_combine]
      exact .inputs (hcs.map _)
  | @element j e e' pre post hcomb hfield _ ih =>
    obtain ⟨isAnd, first, rest, rfl⟩ := h.of_combinator hcomb
    obtain ⟨front, d, back, hsplit, hfront, hd, hback⟩ := forall₂_middle (h.elements hfield)
    obtain ⟨d', hd', hreordered⟩ := ih hd
    obtain ⟨first', rest', hcs⟩ := List.exists_cons_of_ne_nil
      (by simp : front ++ d' :: back ≠ [])
    have hall' : List.Forall₂ Denoted (first' :: rest') (pre ++ e' :: post) :=
      hcs ▸ List.rel_append hfront (.cons hd' hback)
    refine ⟨combine isAnd first' rest', h.setInputs hfield hall', ?_⟩
    rw [fresh_combine, fresh_combine, hsplit, ← hcs]
    simp only [List.map_append, List.map_cons]
    exact .child hreordered
  | @input j e e' hunary hfield _ ih =>
    cases c with
    | not d =>
      obtain ⟨htype, e₀, he₀, hd⟩ := h
      obtain rfl : e = e₀ := by simpa [hfield] using he₀
      obtain ⟨d', hd', hreordered⟩ := ih hd
      refine ⟨.not d', ⟨?_, e', Json.field?_setField_self hfield _, hd'⟩, .notInput hreordered⟩
      rw [Json.field?_setField_ne _ (by decide), htype]
    | tonTimer d presetMs =>
      obtain ⟨htype, ⟨e₀, he₀, hd⟩, hpreset⟩ := h
      obtain rfl : e = e₀ := by simpa [hfield] using he₀
      obtain ⟨d', hd', hreordered⟩ := ih hd
      refine ⟨.tonTimer d' presetMs, ⟨?_, ⟨e', Json.field?_setField_self hfield _, hd'⟩, ?_⟩,
        .timerInput hreordered⟩
      · rw [Json.field?_setField_ne _ (by decide), htype]
      · rw [Json.HasInt, Json.field?_setField_ne _ (by decide)]
        exact hpreset
    | _ => rcases hunary with hj | hj <;> exact absurd (hj.symm.trans h.1) (by simp)

end Condition

/-! ### Rules and programs -/

def Rule.Reordered (r s : Rule) : Prop := r.output = s.output ∧ r.condition.Reordered s.condition

theorem Rule.Reordered.trans {r s t : Rule} (h : r.Reordered s) (h' : s.Reordered t) :
    r.Reordered t := ⟨h.1.trans h'.1, h.2.trans h'.2⟩

theorem forall₂_trans {α : Type} {R : α → α → Prop} (hR : ∀ a b c, R a b → R b c → R a c)
    {l m k : List α} (h : List.Forall₂ R l m) (h' : List.Forall₂ R m k) : List.Forall₂ R l k := by
  induction h generalizing k with
  | nil => exact h'
  | cons ha _ ih =>
    cases h' with
    | cons hb hrest => exact .cons (hR _ _ _ ha hb) (ih hrest)

namespace LogicProgram

theorem reordered_pass {rules rules' : List Rule} (hvalid : ∀ r ∈ rules, r.Valid)
    (h : List.Forall₂ Rule.Reordered rules rules') (mem : MemoryMap) :
    imageAfter rules mem = imageAfter rules' mem ∧
      List.Forall₂ Rule.Reordered (tickRules rules mem) (tickRules rules' mem) := by
  induction h generalizing mem with
  | nil => exact ⟨rfl, .nil⟩
  | @cons r s rest rest' hrs _ ih =>
    obtain ⟨hout, hcond⟩ := hrs
    obtain ⟨hv, ht⟩ := hcond.step mem
    obtain ⟨a, ha, _⟩ := (hvalid r List.mem_cons_self).2
    have hw : r.written mem = s.written mem := by
      rw [Rule.written_eq ha, Rule.written_eq (hout.symm.trans ha), hv]
    obtain ⟨himage, hticks⟩ := ih (fun t ht => hvalid t (List.mem_cons_of_mem _ ht)) (r.written mem)
    refine ⟨?_, ?_⟩
    · simpa [imageAfter, hw] using himage
    · simp only [tickRules]
      exact .cons ⟨hout, ht⟩ (hw ▸ hticks)

theorem after_reordered {p q : LogicProgram} (hp : p.Valid)
    (h : List.Forall₂ Rule.Reordered p.rules q.rules) (env : Nat → MemoryMap → MemoryMap)
    (mem : MemoryMap) (n : Nat) : (after env p mem n).2 = (after env q mem n).2 ∧
      List.Forall₂ Rule.Reordered (after env p mem n).1.rules (after env q mem n).1.rules := by
  induction n with
  | zero => exact ⟨rfl, h⟩
  | succ n ih =>
    obtain ⟨himage, hrules⟩ := ih
    have hpass := reordered_pass (after_valid hp env mem n) hrules (env n (after env p mem n).2)
    simp only [after, ticked, ← himage]
    exact hpass

end LogicProgram

theorem RulesDenoted.middle {rs : List RuleSpec} {index : Nat} {pre post : List Json} {j : Json}
    (h : RulesDenoted rs index (pre ++ j :: post)) :
    ∃ front r back, rs = front ++ r :: back ∧ r.Denoted (index + pre.length) j ∧
      ∀ r' j', r'.Denoted (index + pre.length) j' →
        RulesDenoted (front ++ r' :: back) index (pre ++ j' :: post) := by
  induction pre generalizing rs index with
  | nil =>
    cases rs with
    | nil => cases h
    | cons r rs =>
      obtain ⟨j₀, js, hsplit, hr, hrs⟩ := h
      obtain ⟨rfl, rfl⟩ := List.cons.inj hsplit
      exact ⟨[], r, rs, rfl, hr, fun r' j' hr' => ⟨j', _, rfl, hr', hrs⟩⟩
  | cons k pre ih =>
    cases rs with
    | nil => cases h
    | cons r₀ rs =>
      obtain ⟨j₀, js, hsplit, hr₀, hrs⟩ := h
      obtain ⟨rfl, rfl⟩ := List.cons.inj hsplit
      obtain ⟨front, r, back, rfl, hr, hreplace⟩ := ih hrs
      have hindex : index + 1 + pre.length = index + (k :: pre).length := by simp; omega
      refine ⟨r₀ :: front, r, back, rfl, hindex ▸ hr, fun r' j' hr' => ?_⟩
      exact ⟨k, _, rfl, hr₀, hreplace r' j' (hindex ▸ hr')⟩

def RuleSpec.Reordered (period : Int64) (r s : RuleSpec) : Prop :=
  (r.rule period.toUInt64 fun _ => 0).Reordered (s.rule period.toUInt64 fun _ => 0)

theorem DocumentDenotes.permuted {doc doc' : Json} {rules : List RuleSpec}
    (h : DocumentDenotes doc rules) (hdoc : doc.ConditionsPermuted doc') (period : Int64) :
    ∃ rules', DocumentDenotes doc' rules' ∧
      List.Forall₂ (RuleSpec.Reordered period) rules rules' := by
  induction hdoc generalizing rules with
  | refl doc => exact ⟨rules, h, List.forall₂_same.mpr fun r _ => ⟨rfl, .refl _⟩⟩
  | trans _ _ ihl ihr =>
    obtain ⟨rules₁, h₁, hl⟩ := ihl h
    obtain ⟨rules₂, h₂, hr⟩ := ihr h₁
    exact ⟨rules₂, h₂, forall₂_trans (fun _ _ _ ha hb => ha.trans hb) hl hr⟩
  | @condition doc rule c c' pre post hrules hfield hchild =>
    obtain ⟨js, hjs, hr⟩ := h
    obtain rfl : pre ++ rule :: post = js := by simpa [hrules] using hjs
    obtain ⟨front, r, back, rfl, hr, hreplace⟩ := hr.middle
    obtain ⟨hobj, hid, ⟨output, hout, houtput⟩, c₀, hc₀, hc⟩ := hr
    obtain rfl : c = c₀ := by simpa [hfield] using hc₀
    obtain ⟨d, hd, hreordered⟩ := hc.permuted hchild period
    refine ⟨front ++ { r with condition := d } :: back, ⟨_, Json.field?_setField_self hrules _,
      hreplace _ _ ⟨?_, ?_, ⟨output, ?_, houtput⟩, c', ?_, hd⟩⟩, ?_⟩
    · rw [Json.isObject_setField, hobj]
    · rw [Json.field?_setField_ne _ (by decide)]
      exact hid
    · rw [Json.field?_setField_ne _ (by decide), hout]
    · exact Json.field?_setField_self hfield _
    · have hsame : ∀ rs : List RuleSpec, List.Forall₂ (RuleSpec.Reordered period) rs rs :=
        fun rs => List.forall₂_same.mpr fun r _ => ⟨rfl, .refl _⟩
      exact List.rel_append (hsame front) (.cons ⟨rfl, hreordered⟩ (hsame back))

/-- Permuting the inputs of AND and OR nodes, at any depth and in any rules,
gives an accepted document, whose program leaves the same image after every
call of every run. -/
theorem inputs_order_irrelevant {doc doc' : Json} {period : Int64} {prog : LogicProgram}
    (h : LogicProgram.fromJson doc period = .ok prog) (hdoc : doc.ConditionsPermuted doc') :
    ∃ prog', LogicProgram.fromJson doc' period = .ok prog' ∧
      ∀ (env : Nat → MemoryMap → MemoryMap) (mem : MemoryMap) (n : Nat), ∃ p p' m,
        prog.scan env mem n = .ok (p, m) ∧ prog'.scan env mem n = .ok (p', m) := by
  obtain ⟨rules, hd, rfl⟩ := specs_of_fromJson h
  obtain ⟨rules', hd', hall⟩ := hd.permuted hdoc period
  refine ⟨_, fromJson_of_denotes period hd', fun env mem n => ?_⟩
  have hvalid := LogicProgram.valid_ofSpecs rules period
  have hvalid' := LogicProgram.valid_ofSpecs rules' period
  have hrules : List.Forall₂ Rule.Reordered (LogicProgram.ofSpecs rules period).rules
      (LogicProgram.ofSpecs rules' period).rules :=
    List.forall₂_map_left_iff.mpr (List.forall₂_map_right_iff.mpr hall)
  obtain ⟨himage, _⟩ := LogicProgram.after_reordered hvalid hrules env mem n
  have hscan' := LogicProgram.scan_eq hvalid' env mem n
  exact ⟨_, _, _, LogicProgram.scan_eq hvalid env mem n, by rw [hscan', himage]⟩

def gateInput (bit : Fin 8) : Condition := .input ⟨.input, ⟨0, getSize_pos .input⟩, bit⟩

def gateRules (condition : Condition) : List RuleSpec :=
  [⟨"gate", ⟨.output, ⟨0, getSize_pos .output⟩, 0⟩, output_ne_input, condition⟩]

theorem inputs_order_irrelevant_timer :
    ∃ prog', LogicProgram.fromJson (canonicalDocument (gateRules
        (.and (.tonTimer (gateInput 1) 150) [gateInput 0]))) 100 = .ok prog' ∧
      ∀ (env : Nat → MemoryMap → MemoryMap) (mem : MemoryMap) (n : Nat), ∃ p p' m,
        (LogicProgram.ofSpecs (gateRules (.and (gateInput 0) [.tonTimer (gateInput 1) 150]))
          100).scan env mem n = .ok (p, m) ∧ prog'.scan env mem n = .ok (p', m) := by
  have hdoc := fromJson_of_denotes 100 (denotes_canonicalDocument
    (gateRules (.and (gateInput 0) [.tonTimer (gateInput 1) 150])))
  have hinputs : (Condition.and (gateInput 0) [.tonTimer (gateInput 1) 150]).toJson.InputsPermuted
      (Condition.and (.tonTimer (gateInput 1) 150) [gateInput 0]).toJson :=
    .inputs (.inl rfl) rfl (.swap _ _ _)
  have hpermuted := @Json.ConditionsPermuted.condition (canonicalDocument
    (gateRules (.and (gateInput 0) [.tonTimer (gateInput 1) 150]))) _ _ _ [] [] rfl rfl hinputs
  exact inputs_order_irrelevant hdoc hpermuted

end Openaslc
