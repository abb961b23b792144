import Openaslc.Condition
import Openaslc.LogicParser

/-! The parser against the grammar: each function either builds what its value
denotes, or throws `LogicParseError` on a value that denotes nothing. -/

namespace Openaslc

def Rejects {α : Type} (x : Except Exception α) : Prop :=
  ∃ what, x = .error (.logicParseError what)

theorem rejects_throw {α : Type} (what : String) :
    Rejects (throw (.logicParseError what) : Except Exception α) := ⟨what, rfl⟩

theorem Rejects.bind {α β : Type} {x : Except Exception α} (h : Rejects x)
    (f : α → Except Exception β) : Rejects (x >>= f) := by
  obtain ⟨what, rfl⟩ := h
  exact ⟨what, rfl⟩

theorem ok_bind {α β ε : Type} (a : α) (f : α → Except ε β) :
    ((Except.ok a : Except ε α) >>= f) = f a := rfl

/-- `x` returns what some `b` with `D b` builds, or `D` holds of nothing and
`x` throws `LogicParseError`. -/
def Decides {α β : Type} (D : β → Prop) (build : β → α) (x : Except Exception α) : Prop :=
  (∃ b, D b ∧ x = .ok (build b)) ∨ (∀ b, ¬ D b) ∧ Rejects x

theorem Decides.reject {α β : Type} {D : β → Prop} {build : β → α} {x : Except Exception α}
    (hd : ∀ b, ¬ D b) (hx : Rejects x) : Decides D build x := Or.inr ⟨hd, hx⟩

theorem Decides.accept {α β : Type} {D : β → Prop} {build : β → α} {x : Except Exception α}
    (b : β) (hd : D b) (hx : x = .ok (build b)) : Decides D build x := Or.inl ⟨b, hd, hx⟩

/-- A step of a parser: what the whole denotes needs what the step denotes, and
after a successful step the rest decides. -/
theorem Decides.bind {α β α' β' : Type} {D : β → Prop} {build : β → α} {x : Except Exception α}
    {D' : β' → Prop} {build' : β' → α'} {f : α → Except Exception α'} (hx : Decides D build x)
    (hD : ∀ c, D' c → ∃ b, D b) (hf : ∀ b, D b → Decides D' build' (f (build b))) :
    Decides D' build' (x >>= f) := by
  rcases hx with ⟨b, hb, rfl⟩ | ⟨hno, hrej⟩
  · exact hf b hb
  · refine .reject (fun c hc => ?_) (hrej.bind f)
    obtain ⟨b, hb⟩ := hD c hc
    exact hno b hb

theorem throwIf_decides (c : Bool) (what : String) :
    Decides (fun _ : Unit => c = false) id (throwIf c what) := by
  cases c with
  | false => exact .accept () rfl rfl
  | true => exact .reject (fun _ h => Bool.noConfusion h) (rejects_throw what)

/-! ### Fields -/

theorem requireField_decides (j : Json) (key path : String) :
    Decides (fun field => j.field? key = some field) id (requireField j key path) := by
  cases hf : j.field? key with
  | none => exact .reject (by simp) ⟨_, requireField_of_none path hf⟩
  | some field => exact .accept field rfl (requireField_of_field? path hf)

theorem requireString_decides (j : Json) (key path : String) :
    Decides (fun s => j.field? key = some (.string s)) id (requireString j key path) := by
  refine (requireField_decides j key path).bind (fun s hs => ⟨_, hs⟩) fun field hf => ?_
  cases field with
  | string s => exact .accept s hf rfl
  | _ => exact .reject (fun s hs => by simp [hf] at hs) (rejects_throw _)

/-- The field holds an integer that `get<int64_t>()` converts to `i`. -/
def IntField (j : Json) (key : String) (i : Int64) : Prop :=
  ∃ field, j.field? key = some field ∧ field.getInt64? = some i

theorem requireInt_decides (j : Json) (key path : String) :
    Decides (IntField j key) id (requireInt j key path) := by
  refine (requireField_decides j key path).bind (fun i ⟨field, h, _⟩ => ⟨field, h⟩) fun field hf => ?_
  simp only [id]
  cases hi : field.getInt64? with
  | some i => exact .accept i ⟨field, hf, hi⟩ rfl
  | none =>
    refine .reject (fun i ⟨f, h, hv⟩ => ?_) (rejects_throw _)
    obtain rfl : field = f := by simpa [hf] using h
    rw [hi] at hv
    cases hv

theorem IntField.of_hasInt {j : Json} {key : String} {v : Int} (h : j.HasInt key v) :
    ∃ i, IntField j key i := by
  obtain ⟨field, hf, hv⟩ := h
  have hs := field.getInt64?_isSome
  rw [hv] at hs
  obtain ⟨i, hi⟩ := Option.isSome_iff_exists.mp hs
  exact ⟨i, field, hf, hi⟩

theorem IntField.hasInt {j : Json} {key : String} {i : Int64} (h : IntField j key i)
    (h0 : 0 ≤ i.toInt) : j.HasInt key i.toInt := by
  obtain ⟨field, hf, hi⟩ := h
  obtain ⟨v, hv, _, heq⟩ := Json.getInt64?_spec hi
  exact ⟨field, hf, by rw [hv, heq h0]⟩

theorem IntField.toInt_eq {j : Json} {key : String} {i : Int64} {v : Int} (h : IntField j key i)
    (hv : j.HasInt key v) (h0 : 0 ≤ v) (hlt : v < 2 ^ 63) : i.toInt = v := by
  obtain ⟨field, hf, hi⟩ := h
  obtain ⟨w, hw, hiff, heq⟩ := Json.getInt64?_spec hi
  obtain rfl : w = v := Json.HasInt.unique ⟨field, hf, hw⟩ hv
  exact (heq (hiff.mpr ⟨h0, hlt⟩)).symm

theorem parseArea_decides (s path : String) :
    Decides (fun area : MemoryArea => s = area.letter) id (parseArea s path) := by
  by_cases hI : s = "I"
  · exact .accept .input hI (by simp [parseArea, hI, pure, Except.pure])
  · by_cases hQ : s = "Q"
    · exact .accept .output hQ (by simp [parseArea, hQ, pure, Except.pure])
    · by_cases hM : s = "M"
      · exact .accept .memory hM (by simp [parseArea, hM, pure, Except.pure])
      · refine .reject (fun area h => ?_) ?_
        · cases area
          · exact hI h
          · exact hQ h
          · exact hM h
        · rw [parseArea, if_neg hI, if_neg hQ, if_neg hM]
          exact rejects_throw _

/-! ### References -/

theorem rejectNode_decides (j : Json) (path : String) :
    Decides (fun _ : Unit => j.field? "node" = none) id (rejectNode j path) := by
  cases h : j.field? "node" with
  | none => exact .accept () rfl (by simp [rejectNode, Json.contains, h, pure, Except.pure])
  | some field =>
    have hc : j.contains "node" = true := by simp [Json.contains, h]
    refine .reject (by simp) ?_
    rw [rejectNode, if_pos hc, Json.atKey_of_field? h, ok_bind]
    cases field with
    | string s =>
      cases hu : isValidNodeUidFormat s with
      | true => exact ⟨_, by simp only [hu]; rfl⟩
      | false => exact ⟨_, by simp only [hu]; rfl⟩
    | _ => exact rejects_throw _

theorem int64_nonneg_iff (i : Int64) : i < 0 ↔ ¬ 0 ≤ i.toInt := by
  rw [Int64.lt_iff_toInt_lt, Int64.toInt_zero]
  omega

theorem toNat_toUInt64 {i : Int64} (h : 0 ≤ i.toInt) : i.toUInt64.toNat = i.toInt.toNat :=
  Int64.toNat_toUInt64_of_le (by rwa [Int64.le_iff_toInt_le, Int64.toInt_zero])

theorem byteCheck_iff (i : Int64) (area : MemoryArea) :
    (decide (i < 0) || decide (i.toUInt64 ≥ UInt64.ofNat (getSize area))) = false ↔
      0 ≤ i.toInt ∧ i.toInt < getSize area := by
  have hs := getSize_le area
  rw [Bool.or_eq_false_iff, decide_eq_false_iff_not, decide_eq_false_iff_not, int64_nonneg_iff,
    not_not, ge_iff_le, UInt64.not_le, UInt64.lt_iff_toNat_lt, UInt64.toNat_ofNat',
    Nat.mod_eq_of_lt (by omega : getSize area < 2 ^ 64)]
  constructor
  · rintro ⟨h0, hlt⟩
    rw [toNat_toUInt64 h0] at hlt
    exact ⟨h0, by omega⟩
  · rintro ⟨h0, hlt⟩
    rw [toNat_toUInt64 h0]
    exact ⟨h0, by omega⟩

theorem bitCheck_iff (i : Int64) :
    (decide (i < 0) || decide (i > 7)) = false ↔ 0 ≤ i.toInt ∧ i.toInt < 8 := by
  have h7 : (7 : Int64).toInt = 7 := rfl
  rw [Bool.or_eq_false_iff, decide_eq_false_iff_not, decide_eq_false_iff_not, int64_nonneg_iff,
    not_not, gt_iff_lt, Int64.lt_iff_toInt_lt, h7]
  omega

theorem ref_eq_of_toInt (a : SignalAddr) {byte bit : Int64} (hbyte : byte.toInt = a.byte.val)
    (hbit : bit.toInt = a.bit.val) :
    (⟨none, a.area, byte.toUInt64, bit.toUInt64.toUInt8⟩ : SignalRef) = a.ref := by
  have h₁ : byte.toUInt64 = a.byteOffset := by
    apply UInt64.toNat_inj.mp
    rw [toNat_toUInt64 (by omega), SignalAddr.toNat_byteOffset]
    omega
  have h₂ : bit.toUInt64.toUInt8 = a.bitIndex := by
    have hlt := a.bit.isLt
    apply UInt8.toNat_inj.mp
    rw [UInt64.toNat_toUInt8, toNat_toUInt64 (by omega), SignalAddr.toNat_bitIndex]
    omega
  rw [h₁, h₂]
  rfl

/-- The part of a reference that the writer of a rule may not choose. -/
def Writable (allowInputArea : Bool) (a : SignalAddr) : Prop :=
  allowInputArea = true ∨ a.area ≠ .input

theorem inputCheck_iff (allowInputArea : Bool) (a : SignalAddr) :
    (!allowInputArea && a.area == .input) = false ↔ Writable allowInputArea a := by
  cases allowInputArea <;> simp [Writable]

theorem parseSignalRef_decides (j : Json) (path : String) (allowInputArea : Bool) :
    Decides (fun a : SignalAddr => a.Denoted j ∧ Writable allowInputArea a) SignalAddr.ref
      (parseSignalRef j path allowInputArea) := by
  refine (throwIf_decides _ _).bind
    (fun a ⟨h, _⟩ => ⟨(), by rw [Json.isObject_of_field? h.2.1]; rfl⟩) fun _ _ => ?_
  refine (rejectNode_decides j path).bind (fun a ⟨h, _⟩ => ⟨(), h.1⟩) fun _ hnode => ?_
  refine (requireString_decides j "area" path).bind (fun a ⟨h, _⟩ => ⟨_, h.2.1⟩) fun s hs => ?_
  refine (parseArea_decides s _).bind (fun a ⟨h, _⟩ => ⟨a.area, ?_⟩) fun area harea => ?_
  · simpa [hs] using h.2.1
  -- from here every denotation lies in `area`
  have hsame : ∀ a : SignalAddr, a.Denoted j → a.area = area := by
    intro a h
    apply MemoryArea.letter_injective
    simpa [hs, harea] using h.2.1.symm
  simp only [id]
  refine (throwIf_decides _ _).bind (fun a ⟨h, hw⟩ => ⟨(), ?_⟩) fun _ hin => ?_
  · rw [← hsame a h]
    exact (inputCheck_iff allowInputArea a).mpr hw
  refine (requireInt_decides j "byte" path).bind (fun a ⟨h, _⟩ => IntField.of_hasInt h.2.2.1)
    fun byte hbyte => ?_
  simp only [id]
  refine (throwIf_decides _ _).bind (fun a ⟨h, _⟩ => ⟨(), ?_⟩) fun _ hbyteOk => ?_
  · have hlt := a.byte.isLt
    have hle := getSize_le a.area
    have he := hbyte.toInt_eq h.2.2.1 (by omega) (by omega)
    rw [← hsame a h]
    exact (byteCheck_iff byte a.area).mpr ⟨by omega, by omega⟩
  refine (requireInt_decides j "bit" path).bind (fun a ⟨h, _⟩ => IntField.of_hasInt h.2.2.2)
    fun bit hbit => ?_
  simp only [id]
  refine (throwIf_decides _ _).bind (fun a ⟨h, _⟩ => ⟨(), ?_⟩) fun _ hbitOk => ?_
  · have hlt := a.bit.isLt
    have he := hbit.toInt_eq h.2.2.2 (by omega) (by omega)
    exact (bitCheck_iff bit).mpr ⟨by omega, by omega⟩
  obtain ⟨hbyte0, hbyteLt⟩ := (byteCheck_iff byte area).mp hbyteOk
  obtain ⟨hbit0, hbitLt⟩ := (bitCheck_iff bit).mp hbitOk
  let a : SignalAddr := ⟨area, ⟨byte.toInt.toNat, by omega⟩, ⟨bit.toInt.toNat, by omega⟩⟩
  have hbyteVal : byte.toInt = a.byte.val := (Int.toNat_of_nonneg hbyte0).symm
  have hbitVal : bit.toInt = a.bit.val := (Int.toNat_of_nonneg hbit0).symm
  have hvb := hbyte.hasInt hbyte0
  have hvi := hbit.hasInt hbit0
  rw [hbyteVal] at hvb
  rw [hbitVal] at hvi
  have harea' : j.field? "area" = some (.string a.area.letter) := by rw [hs, harea]
  exact .accept a ⟨⟨hnode, harea', hvb, hvi⟩, (inputCheck_iff allowInputArea a).mp hin⟩
    (congrArg Except.ok (ref_eq_of_toInt a hbyteVal hbitVal))

/-! ### Conditions -/

theorem Decides.map {α β γ : Type} {D : β → Prop} {build : β → α} {x : Except Exception α}
    {D' : γ → Prop} {build' : γ → α} (hx : Decides D build x) (g : β → γ)
    (hD : ∀ c, D' c → ∃ b, D b) (hg : ∀ b, D b → D' (g b) ∧ build' (g b) = build b) :
    Decides D' build' x := by
  rcases hx with ⟨b, hb, rfl⟩ | ⟨hno, hrej⟩
  · obtain ⟨hd, he⟩ := hg b hb
    exact .accept (g b) hd (by rw [he])
  · refine .reject (fun c hc => ?_) hrej
    obtain ⟨b, hb⟩ := hD c hc
    exact hno b hb

theorem requireChild_decides (j : Json) (key path : String) :
    Decides (fun child : { field : Json // sizeOf field < sizeOf j } =>
      j.field? key = some child.val) id (requireChild j key path) := by
  cases hf : j.field? key with
  | none => exact .reject (by simp) ⟨_, requireChild_of_none path hf⟩
  | some field => exact .accept ⟨field, _⟩ rfl (requireChild_of_field? path hf)

def fresh (period : Int64) (c : Condition) : LogicNode :=
  c.node period.toUInt64 fun _ => 0

def ConditionDecided (period : Int64) (j : Json) : Prop :=
  ∀ path, Decides (fun c : Condition => c.Denoted j) (fresh period)
    (parseConditionNode period j path)

theorem parseInputs_decides {period : Int64} {es : List Json}
    (h : ∀ e ∈ es, ConditionDecided period e) (i : Nat) (path : String) :
    Decides (fun cs => Condition.DenotedAll cs es) (List.map (fresh period))
      (parseInputs period es i path) := by
  induction es generalizing i with
  | nil =>
    rw [parseInputs]
    exact .accept [] rfl rfl
  | cons e es ih =>
    have hrest := ih (fun d hd => h d (List.mem_cons_of_mem _ hd)) (i + 1)
    rw [parseInputs]
    refine (h e List.mem_cons_self _).bind ?_ fun c hc => ?_
    · intro cs hcs
      cases cs with
      | nil => simp [Condition.DenotedAll] at hcs
      | cons c cs =>
        obtain ⟨e', es', he, hc, _⟩ := hcs
        obtain ⟨rfl, rfl⟩ := List.cons.inj he
        exact ⟨c, hc⟩
    · refine hrest.bind ?_ fun cs hcs => ?_
      · intro cs hcs
        cases cs with
        | nil => simp [Condition.DenotedAll] at hcs
        | cons c cs =>
          obtain ⟨e', es', he, _, hcs⟩ := hcs
          obtain ⟨rfl, rfl⟩ := List.cons.inj he
          exact ⟨cs, hcs⟩
      · exact .accept (c :: cs) ⟨e, es, rfl, hc, hcs⟩ rfl

def InputsDenoted (j : Json) (cs : Condition × List Condition) : Prop :=
  ∃ e es, j.field? "inputs" = some (.array (e :: es)) ∧ cs.1.Denoted e ∧
    Condition.DenotedAll cs.2 es

theorem parseBoolCombinator_decides {period : Int64} {j : Json}
    (h : ∀ e, sizeOf e < sizeOf j → ConditionDecided period e) (path : String) (isAnd : Bool) :
    Decides (InputsDenoted j)
      (fun cs => if isAnd then .andNode ((cs.1 :: cs.2).map (fresh period))
        else .orNode ((cs.1 :: cs.2).map (fresh period)))
      (parseBoolCombinator period j path isAnd) := by
  rw [parseBoolCombinator]
  refine (requireChild_decides j "inputs" path).bind ?_ fun child hchild => ?_
  · rintro cs ⟨e, es, hin, _⟩
    exact ⟨⟨_, Json.sizeOf_field?_lt hin⟩, hin⟩
  obtain ⟨field, hlt⟩ := child
  simp only at hchild
  cases field with
  | array elements =>
    cases elements with
    | nil =>
      refine .reject ?_ (rejects_throw _)
      rintro cs ⟨e, es, hin, _⟩
      simp [hchild] at hin
    | cons e es =>
      have hes : ∀ d ∈ e :: es, ConditionDecided period d := by
        intro d hd
        have hd' := List.sizeOf_lt_of_mem hd
        simp only [Json.array.sizeOf_spec] at hlt
        exact h d (by omega)
      refine (parseInputs_decides hes 0 path).bind ?_ fun cs hcs => ?_
      · rintro cs ⟨e', es', hin, hf, hr⟩
        obtain ⟨rfl, rfl⟩ : e = e' ∧ es = es' := by simpa [hchild] using hin
        exact ⟨cs.1 :: cs.2, e, es, rfl, hf, hr⟩
      · cases cs with
        | nil => simp [Condition.DenotedAll] at hcs
        | cons c cs =>
          obtain ⟨e', es', he, hc, hcs⟩ := hcs
          obtain ⟨rfl, rfl⟩ := List.cons.inj he
          exact .accept (c, cs) ⟨e, es, hchild, hc, hcs⟩ rfl
  | _ =>
    refine .reject ?_ (rejects_throw _)
    rintro cs ⟨e, es, hin, _⟩
    simp [hchild] at hin

def Condition.typeName : Condition → String
  | .input _ => "INPUT"
  | .and _ _ => "AND"
  | .or _ _ => "OR"
  | .not _ => "NOT"
  | .tonTimer _ _ => "TON_TIMER"

theorem Condition.Denoted.type {c : Condition} {j : Json} (h : c.Denoted j) :
    j.field? "type" = some (.string c.typeName) := by
  cases c <;> exact h.1

theorem Condition.Denoted.not_of_type {c : Condition} {j : Json} (h : c.Denoted j)
    (htype : c.typeName = "NOT") : ∃ d e, c = .not d ∧ j.field? "input" = some e ∧ d.Denoted e := by
  cases c with
  | not d =>
    obtain ⟨e, he, hd⟩ := h.2
    exact ⟨d, e, rfl, he, hd⟩
  | _ => exact absurd htype (by simp [Condition.typeName])

theorem Condition.Denoted.tonTimer_of_type {c : Condition} {j : Json} (h : c.Denoted j)
    (htype : c.typeName = "TON_TIMER") : ∃ d q e, c = .tonTimer d q ∧ j.field? "input" = some e ∧
      d.Denoted e ∧ j.HasInt "preset_ms" q.val := by
  cases c with
  | tonTimer d q =>
    obtain ⟨_, ⟨e, he, hd⟩, hq⟩ := h
    exact ⟨d, q, e, rfl, he, hd, hq⟩
  | _ => exact absurd htype (by simp [Condition.typeName])

theorem nonneg_iff (i : Int64) : decide (i < 0) = false ↔ 0 ≤ i.toInt := by
  rw [decide_eq_false_iff_not, int64_nonneg_iff, not_not]

theorem ofNat_toInt {i : Int64} (h : 0 ≤ i.toInt) : UInt64.ofNat i.toInt.toNat = i.toUInt64 := by
  have hlt := i.toInt_lt
  apply UInt64.toNat_inj.mp
  rw [toNat_toUInt64 h, UInt64.toNat_ofNat', Nat.mod_eq_of_lt (by omega)]

theorem parseConditionNode_decides (period : Int64) (j : Json) : ConditionDecided period j := by
  induction hn : sizeOf j using Nat.strong_induction_on generalizing j with
  | _ n ih =>
  have hchild : ∀ e, sizeOf e < sizeOf j → ConditionDecided period e :=
    fun e he => ih (sizeOf e) (hn ▸ he) e rfl
  intro path
  rw [parseConditionNode]
  refine (throwIf_decides _ _).bind
    (fun c hc => ⟨(), by rw [Json.isObject_of_field? hc.type]; rfl⟩) fun _ _ => ?_
  refine (requireString_decides j "type" path).bind (fun c hc => ⟨_, hc.type⟩) fun s hs => ?_
  simp only [id]
  have htype : ∀ c : Condition, c.Denoted j → c.typeName = s := by
    intro c hc
    simpa [hs] using hc.type.symm
  by_cases hinput : s = "INPUT"
  · rw [if_pos hinput]
    refine (parseSignalRef_decides j path true).bind ?_ fun a ha => ?_
    · intro c hc
      cases c with
      | input a => exact ⟨a, hc.2, .inl rfl⟩
      | _ => exact absurd (htype _ hc) (by simp [hinput, Condition.typeName])
    · exact .accept (.input a) ⟨by rw [hs, hinput], ha.1⟩ rfl
  rw [if_neg hinput]
  by_cases hand : s = "AND"
  · rw [if_pos hand]
    refine (parseBoolCombinator_decides hchild path true).map (fun cs => .and cs.1 cs.2) ?_ ?_
    · intro c hc
      cases c with
      | and first rest => exact ⟨(first, rest), hc.2⟩
      | _ => exact absurd (htype _ hc) (by simp [hand, Condition.typeName])
    · intro cs hcs
      exact ⟨⟨by rw [hs, hand], hcs⟩, by simp [fresh, Condition.node]⟩
  rw [if_neg hand]
  by_cases hor : s = "OR"
  · rw [if_pos hor]
    refine (parseBoolCombinator_decides hchild path false).map (fun cs => .or cs.1 cs.2) ?_ ?_
    · intro c hc
      cases c with
      | or first rest => exact ⟨(first, rest), hc.2⟩
      | _ => exact absurd (htype _ hc) (by simp [hor, Condition.typeName])
    · intro cs hcs
      exact ⟨⟨by rw [hs, hor], hcs⟩, by simp [fresh, Condition.node]⟩
  rw [if_neg hor]
  by_cases hnot : s = "NOT"
  · rw [if_pos hnot]
    refine (requireChild_decides j "input" path).bind ?_ fun child hin => ?_
    · intro c hc
      obtain ⟨d, e, _, he, _⟩ := hc.not_of_type (hnot ▸ htype c hc)
      exact ⟨⟨e, Json.sizeOf_field?_lt he⟩, he⟩
    refine (hchild child.val child.property _).bind ?_ fun d hd => ?_
    · intro c hc
      obtain ⟨d, e, _, he, hd⟩ := hc.not_of_type (hnot ▸ htype c hc)
      obtain rfl : child.val = e := by simpa [hin] using he
      exact ⟨d, hd⟩
    · exact .accept (.not d) ⟨by rw [hs, hnot], child.val, hin, hd⟩ rfl
  rw [if_neg hnot]
  by_cases htimer : s = "TON_TIMER"
  · rw [if_pos htimer]
    refine (requireChild_decides j "input" path).bind ?_ fun child hin => ?_
    · intro c hc
      obtain ⟨d, q, e, _, he, _⟩ := hc.tonTimer_of_type (htimer ▸ htype c hc)
      exact ⟨⟨e, Json.sizeOf_field?_lt he⟩, he⟩
    refine (hchild child.val child.property _).bind ?_ fun d hd => ?_
    · intro c hc
      obtain ⟨d, q, e, _, he, hd, _⟩ := hc.tonTimer_of_type (htimer ▸ htype c hc)
      obtain rfl : child.val = e := by simpa [hin] using he
      exact ⟨d, hd⟩
    refine (requireInt_decides j "preset_ms" path).bind ?_ fun preset hpreset => ?_
    · intro c hc
      obtain ⟨d, q, e, _, _, _, hq⟩ := hc.tonTimer_of_type (htimer ▸ htype c hc)
      exact IntField.of_hasInt hq
    simp only [id]
    refine (throwIf_decides _ _).bind ?_ fun _ hsign => ?_
    · intro c hc
      obtain ⟨d, q, e, _, _, _, hq⟩ := hc.tonTimer_of_type (htimer ▸ htype c hc)
      have hlt := q.isLt
      have hv := hpreset.toInt_eq hq (by omega) (by omega)
      exact ⟨(), (nonneg_iff preset).mpr (by omega)⟩
    have h0 := (nonneg_iff preset).mp hsign
    have hlt := preset.toInt_lt
    have hv := hpreset.hasInt h0
    rw [← Int.toNat_of_nonneg h0] at hv
    refine .accept (.tonTimer d ⟨preset.toInt.toNat, by omega⟩)
      ⟨by rw [hs, htimer], ⟨child.val, hin, hd⟩, hv⟩ ?_
    simp only [fresh, Condition.node, ofNat_toInt h0]
    rfl
  rw [if_neg htimer]
  refine .reject (fun c hc => ?_) (rejects_throw _)
  have ht := htype c hc
  cases c with
  | input a => exact hinput ht.symm
  | and first rest => exact hand ht.symm
  | or first rest => exact hor ht.symm
  | not d => exact hnot ht.symm
  | tonTimer d q => exact htimer ht.symm

/-! ### Rules and documents -/

def IdDenoted (index : Nat) (j : Json) (id : String) : Prop :=
  match j.field? "id" with
  | none => id = "rules[" ++ toString index ++ "]"
  | some field => field = .string id

theorem ruleId_decides (j : Json) (index : Nat) :
    Decides (IdDenoted index j) id (ruleId j ("rules[" ++ toString index ++ "]")) := by
  cases hf : j.field? "id" with
  | none =>
    have hc : j.contains "id" = false := by simp [Json.contains, hf]
    rw [ruleId, hc]
    exact .accept _ (by simp only [IdDenoted, hf]) rfl
  | some field =>
    have hc : j.contains "id" = true := by simp [Json.contains, hf]
    rw [ruleId, if_pos hc]
    refine (requireString_decides j "id" _).map id (fun s hs => ⟨s, ?_⟩) fun s hs => ⟨?_, rfl⟩
    · simp only [IdDenoted, hf] at hs
      rw [hf, hs]
    · simp only [hf, Option.some.injEq] at hs
      simp only [IdDenoted, hf, hs, id]

theorem parseRule_decides (period : Int64) (j : Json) (index : Nat) :
    Decides (fun r : RuleSpec => r.Denoted index j) (fun r => r.rule period.toUInt64 fun _ => 0)
      (parseRule period j index) := by
  refine (throwIf_decides _ _).bind (fun r hr => ⟨(), by rw [hr.1]; rfl⟩) fun _ hobj => ?_
  refine (ruleId_decides j index).bind (fun r hr => ⟨r.id, hr.2.1⟩) fun id hid => ?_
  refine (requireField_decides j "output" _).bind ?_ fun outputField hout => ?_
  · rintro r ⟨_, _, ⟨field, hf, _⟩, _⟩
    exact ⟨field, hf⟩
  refine (parseSignalRef_decides outputField _ false).bind ?_ fun output houtput => ?_
  · rintro r ⟨_, _, ⟨field, hf, ha⟩, _⟩
    obtain rfl : outputField = field := by simpa [hout] using hf
    exact ⟨r.output, ha, .inr r.writable⟩
  refine (requireField_decides j "condition" _).bind ?_ fun conditionField hcond => ?_
  · rintro r ⟨_, _, _, field, hf, _⟩
    exact ⟨field, hf⟩
  refine (parseConditionNode_decides period conditionField _).bind ?_ fun condition hcondition => ?_
  · rintro r ⟨_, _, _, field, hf, hc⟩
    obtain rfl : conditionField = field := by simpa [hcond] using hf
    exact ⟨r.condition, hc⟩
  have hwritable : output.area ≠ .input := by simpa [Writable] using houtput.2
  exact .accept ⟨id, output, hwritable, condition⟩
    ⟨by simpa using hobj, hid, ⟨outputField, hout, houtput.1⟩, conditionField, hcond, hcondition⟩ rfl

theorem parseRules_decides (period : Int64) (js : List Json) (index : Nat) :
    Decides (fun rs => RulesDenoted rs index js)
      (List.map fun r : RuleSpec => r.rule period.toUInt64 fun _ => 0)
      (parseRules period js index) := by
  induction js generalizing index with
  | nil => exact .accept [] rfl rfl
  | cons j js ih =>
    refine (parseRule_decides period j index).bind ?_ fun r hr => ?_
    · intro rs hrs
      cases rs with
      | nil => simp [RulesDenoted] at hrs
      | cons r rs =>
        obtain ⟨j', js', he, hr, _⟩ := hrs
        obtain ⟨rfl, rfl⟩ := List.cons.inj he
        exact ⟨r, hr⟩
    · refine (ih (index + 1)).bind ?_ fun rs hrs => ?_
      · intro rs hrs
        cases rs with
        | nil => simp [RulesDenoted] at hrs
        | cons r rs =>
          obtain ⟨j', js', he, _, hrs⟩ := hrs
          obtain ⟨rfl, rfl⟩ := List.cons.inj he
          exact ⟨rs, hrs⟩
      · exact .accept (r :: rs) ⟨j, js, rfl, hr, hrs⟩ rfl

theorem fromJson_decides (doc : Json) (period : Int64) :
    Decides (DocumentDenotes doc) (fun rules => LogicProgram.ofSpecs rules period)
      (LogicProgram.fromJson doc period) := by
  refine (throwIf_decides _ _).bind ?_ fun _ _ => ?_
  · rintro rules ⟨js, hjs, _⟩
    exact ⟨(), by rw [Json.isObject_of_field? hjs]; rfl⟩
  refine (requireField_decides doc "rules" _).bind ?_ fun rulesField hrules => ?_
  · rintro rules ⟨js, hjs, _⟩
    exact ⟨_, hjs⟩
  cases rulesField with
  | array js =>
    refine (parseRules_decides period js 0).bind ?_ fun rules hr => ?_
    · rintro rules ⟨js', hjs, hr⟩
      obtain rfl : js = js' := by simpa [hrules] using hjs
      exact ⟨rules, hr⟩
    · exact .accept rules ⟨js, hrules, hr⟩ rfl
  | _ =>
    refine .reject ?_ (rejects_throw _)
    rintro rules ⟨js, hjs, _⟩
    simp [hrules] at hjs

/-- A program that the parser returns is the fresh program of a rule list that
its document denotes. -/
theorem specs_of_fromJson {doc : Json} {period : Int64} {prog : LogicProgram}
    (h : LogicProgram.fromJson doc period = .ok prog) :
    ∃ rules, DocumentDenotes doc rules ∧ prog = LogicProgram.ofSpecs rules period := by
  rcases fromJson_decides doc period with ⟨rules, hd, hok⟩ | ⟨_, what, herr⟩
  · rw [hok] at h
    exact ⟨rules, hd, (Except.ok.inj h).symm⟩
  · rw [herr] at h
    cases h

theorem fromJson_of_denotes {doc : Json} {rules : List RuleSpec} (period : Int64)
    (h : DocumentDenotes doc rules) :
    LogicProgram.fromJson doc period = .ok (LogicProgram.ofSpecs rules period) := by
  rcases fromJson_decides doc period with ⟨rules', hd, hok⟩ | ⟨hno, _⟩
  · rw [hok, hd.unique h]
  · exact absurd h (hno rules)

/-- The parser accepts exactly the documents of the grammar and builds the rule
list that the document denotes; every other value makes it throw
`LogicParseError`; a canonical document is read back. -/
theorem fromJson_accepts_grammar (doc : Json) (period : Int64) :
    (∀ prog, LogicProgram.fromJson doc period = .ok prog ↔
      ∃ rules, DocumentDenotes doc rules ∧ prog = LogicProgram.ofSpecs rules period) ∧
    ((∃ what, LogicProgram.fromJson doc period = .error (.logicParseError what)) ↔
      ¬ ∃ rules, DocumentDenotes doc rules) ∧
    ∀ rules, LogicProgram.fromJson (canonicalDocument rules) period =
      .ok (LogicProgram.ofSpecs rules period) := by
  refine ⟨fun prog => ⟨specs_of_fromJson, ?_⟩, ⟨?_, fun hno => ?_⟩, fun rules => ?_⟩
  · rintro ⟨rules, hd, rfl⟩
    exact fromJson_of_denotes period hd
  · rintro ⟨what, herr⟩ ⟨rules, hd⟩
    rw [fromJson_of_denotes period hd] at herr
    cases herr
  · rcases fromJson_decides doc period with ⟨rules, hd, _⟩ | ⟨_, hrej⟩
    · exact absurd ⟨rules, hd⟩ hno
    · exact hrej
  · exact fromJson_of_denotes period (denotes_canonicalDocument rules)

end Openaslc
