import Openaslc.LogicNode

/-! Programs and scan cycles. A call of `execute` runs the rules in array order
on one image; between two calls other code may rewrite the image. -/

namespace Openaslc

structure Rule where
  id : String
  output : SignalRef
  condition : LogicNode

structure LogicProgram where
  rules : List Rule := []

/-- One pass of the loop in `LogicProgram::execute`. -/
def Rule.execute (rule : Rule) (mem : MemoryMap) : Except Fault (Rule × MemoryMap) := do
  let (result, condition) ← rule.condition.evaluate mem
  let (_, mem) ← (writeBit rule.output.area rule.output.byte rule.output.bit result).exec mem
  return ({ rule with condition }, mem)

def executeRules : List Rule → MemoryMap → Except Fault (List Rule × MemoryMap)
  | [], mem => return ([], mem)
  | rule :: rest, mem => do
    let (rule, mem) ← rule.execute mem
    let (rest, mem) ← executeRules rest mem
    return (rule :: rest, mem)

namespace LogicProgram

def execute (p : LogicProgram) (mem : MemoryMap) : Except Fault (LogicProgram × MemoryMap) := do
  let (rules, mem) ← executeRules p.rules mem
  return (⟨rules⟩, mem)

def TimersZero (p : LogicProgram) : Prop := ∀ r ∈ p.rules, ∀ c ∈ r.condition.elapsed, c = 0

def ruleCount (p : LogicProgram) : Nat := p.rules.length

/-- The program and the image after `n` calls; `env k` is what other code does
to the image before call `k`, such as the drivers of `AslcEngine::run`. -/
def scan (env : Nat → MemoryMap → MemoryMap) (p : LogicProgram) (mem : MemoryMap) :
    Nat → Except Fault (LogicProgram × MemoryMap)
  | 0 => return (p, mem)
  | n + 1 => do
    let (p, mem) ← scan env p mem n
    p.execute (env n mem)

/-- The image that rule `j` finds in one call on `mem`. -/
def imageBefore (p : LogicProgram) (mem : MemoryMap) (j : Nat) : Except Fault MemoryMap := do
  let (_, mem) ← executeRules (p.rules.take j) mem
  return mem

/-- The value that rule `j` computes and writes in one call on `mem`. -/
def computed (p : LogicProgram) (mem : MemoryMap) (j : Nat) : Except Fault (Option Bool) := do
  let image ← p.imageBefore mem j
  match p.rules[j]? with
  | none => return none
  | some rule => do
    let (value, _) ← rule.condition.evaluate image
    return some value

end LogicProgram

theorem executeRules_append (rules rest : List Rule) (mem : MemoryMap) :
    executeRules (rules ++ rest) mem = do
      let (rules, mem) ← executeRules rules mem
      let (rest, mem) ← executeRules rest mem
      return (rules ++ rest, mem) := by
  induction rules generalizing mem with
  | nil =>
    simp only [List.nil_append, executeRules, pure_bind]
    cases executeRules rest mem <;> rfl
  | cons rule rules ih =>
    simp only [List.cons_append, executeRules]
    cases rule.execute mem with
    | error e => rfl
    | ok ran =>
      simp only [bind, Except.bind] at ih ⊢
      simp only [ih]
      cases executeRules rules ran.2 with
      | error e => rfl
      | ok rest' =>
        simp only [pure, Except.pure]
        cases executeRules rest rest'.2 <;> rfl

/-! ### Valid programs -/

def Rule.Valid (r : Rule) : Prop :=
  r.condition.Valid ∧ ∃ a : SignalAddr, r.output = a.ref ∧ a.area ≠ .input

def LogicProgram.Valid (p : LogicProgram) : Prop := ∀ r ∈ p.rules, r.Valid

def Rule.tick (mem : MemoryMap) (r : Rule) : Rule := { r with condition := r.condition.tick mem }

theorem Rule.Valid.tick {r : Rule} (h : r.Valid) (mem : MemoryMap) : (r.tick mem).Valid :=
  ⟨h.1.tick mem, h.2⟩

def Rule.written (mem : MemoryMap) (r : Rule) : MemoryMap :=
  match (writeBit r.output.area r.output.byte r.output.bit (r.condition.value mem)).exec mem with
  | .ok (_, mem') => mem'
  | .error _ => mem

theorem Rule.written_eq {mem : MemoryMap} {r : Rule} {a : SignalAddr} (h : r.output = a.ref) :
    r.written mem = mem.setBitAt a (r.condition.value mem) := by
  simp [Rule.written, h, SignalAddr.ref, writeBit_addr]

def imageAfter (rules : List Rule) (mem : MemoryMap) : MemoryMap :=
  rules.foldl Rule.written mem

def tickRules : List Rule → MemoryMap → List Rule
  | [], _ => []
  | r :: rest, mem => r.tick mem :: tickRules rest (r.written mem)

theorem tickRules_getElem? (rules : List Rule) (mem : MemoryMap) (j : Nat) :
    (tickRules rules mem)[j]? = rules[j]?.map (Rule.tick (imageAfter (rules.take j) mem)) := by
  induction rules generalizing mem j with
  | nil => simp [tickRules]
  | cons r rest ih =>
    cases j with
    | zero => simp [tickRules, imageAfter]
    | succ j => simpa [tickRules, imageAfter] using ih (r.written mem) j

theorem tickRules_output (rules : List Rule) (mem : MemoryMap) :
    (tickRules rules mem).map Rule.output = rules.map Rule.output := by
  induction rules generalizing mem with
  | nil => rfl
  | cons r rest ih => simpa [tickRules, Rule.tick] using ih (r.written mem)

theorem tickRules_valid {rules : List Rule} (h : ∀ r ∈ rules, r.Valid) (mem : MemoryMap) :
    ∀ r ∈ tickRules rules mem, r.Valid := by
  induction rules generalizing mem with
  | nil => simp [tickRules]
  | cons r rest ih =>
    intro t ht
    rcases List.mem_cons.mp ht with rfl | ht
    · exact (h r List.mem_cons_self).tick mem
    · exact ih (fun s hs => h s (List.mem_cons_of_mem _ hs)) (r.written mem) t ht

theorem imageAfter_take_succ {rules : List Rule} {j : Nat} {r : Rule} (h : rules[j]? = some r)
    (mem : MemoryMap) :
    imageAfter (rules.take (j + 1)) mem = r.written (imageAfter (rules.take j) mem) := by
  rw [List.take_add_one, h]
  simp [imageAfter]

theorem Rule.execute_eq {r : Rule} (h : r.Valid) (mem : MemoryMap) :
    r.execute mem = .ok (r.tick mem, r.written mem) := by
  obtain ⟨a, ha, _⟩ := h.2
  have hw : (writeBit r.output.area r.output.byte r.output.bit (r.condition.value mem)).exec mem =
      .ok ((), r.written mem) := by
    rw [Rule.written_eq ha, ha]
    exact writeBit_addr a _ mem
  rw [Rule.execute, LogicNode.evaluate_eq mem h.1]
  simp only [bind, Except.bind, hw]
  rfl

theorem executeRules_eq {rules : List Rule} (h : ∀ r ∈ rules, r.Valid) (mem : MemoryMap) :
    executeRules rules mem = .ok (tickRules rules mem, imageAfter rules mem) := by
  induction rules generalizing mem with
  | nil => rfl
  | cons r rest ih =>
    have hr := Rule.execute_eq (h r List.mem_cons_self) mem
    have hrest := ih (fun s hs => h s (List.mem_cons_of_mem _ hs)) (r.written mem)
    rw [executeRules, hr]
    simp only [bind, Except.bind, hrest]
    rfl

namespace LogicProgram

def ticked (p : LogicProgram) (mem : MemoryMap) : LogicProgram := ⟨tickRules p.rules mem⟩

theorem Valid.ticked {p : LogicProgram} (h : p.Valid) (mem : MemoryMap) : (p.ticked mem).Valid :=
  tickRules_valid h mem

theorem execute_eq {p : LogicProgram} (h : p.Valid) (mem : MemoryMap) :
    p.execute mem = .ok (p.ticked mem, imageAfter p.rules mem) := by
  rw [execute, executeRules_eq h]
  rfl

theorem imageBefore_eq {p : LogicProgram} (h : p.Valid) (mem : MemoryMap) (j : Nat) :
    p.imageBefore mem j = .ok (imageAfter (p.rules.take j) mem) := by
  rw [imageBefore, executeRules_eq fun r hr => h r (List.mem_of_mem_take hr)]
  rfl

theorem computed_eq {p : LogicProgram} (h : p.Valid) (mem : MemoryMap) {j : Nat} {r : Rule}
    (hr : p.rules[j]? = some r) :
    p.computed mem j = .ok (some (r.condition.value (imageAfter (p.rules.take j) mem))) := by
  have hv := (h r (List.mem_of_getElem? hr)).1
  rw [computed, imageBefore_eq h]
  simp only [bind, Except.bind, hr, LogicNode.evaluate_eq _ hv]
  rfl

/-- The run of a program whose calls all return. -/
def after (env : Nat → MemoryMap → MemoryMap) (p : LogicProgram) (mem : MemoryMap) :
    Nat → LogicProgram × MemoryMap
  | 0 => (p, mem)
  | n + 1 =>
    let (q, m) := after env p mem n
    (q.ticked (env n m), imageAfter q.rules (env n m))

theorem after_valid {p : LogicProgram} (h : p.Valid) (env : Nat → MemoryMap → MemoryMap)
    (mem : MemoryMap) (n : Nat) : (after env p mem n).1.Valid := by
  induction n with
  | zero => exact h
  | succ n ih => exact ih.ticked _

theorem after_output (p : LogicProgram) (env : Nat → MemoryMap → MemoryMap) (mem : MemoryMap)
    (n : Nat) : (after env p mem n).1.rules.map Rule.output = p.rules.map Rule.output := by
  induction n with
  | zero => rfl
  | succ n ih => exact (tickRules_output _ _).trans ih

theorem scan_eq {p : LogicProgram} (h : p.Valid) (env : Nat → MemoryMap → MemoryMap)
    (mem : MemoryMap) (n : Nat) : scan env p mem n = .ok (after env p mem n) := by
  induction n with
  | zero => rfl
  | succ n ih =>
    rw [scan, ih]
    exact execute_eq (after_valid h env mem n) _

end LogicProgram

/-! ### Which bits one call changes -/

theorem imageAfter_bitAt_of_not_output {rules : List Rule} (h : ∀ r ∈ rules, r.Valid)
    (mem : MemoryMap) {a : SignalAddr} (ha : ∀ r ∈ rules, r.output ≠ a.ref) :
    (imageAfter rules mem).bitAt a = mem.bitAt a := by
  induction rules generalizing mem with
  | nil => rfl
  | cons r rest ih =>
    obtain ⟨b, hb, _⟩ := (h r List.mem_cons_self).2
    have hne : a ≠ b := fun he => ha r List.mem_cons_self (by rw [hb, he])
    have hrest := ih (fun s hs => h s (List.mem_cons_of_mem _ hs)) (r.written mem)
      (fun s hs => ha s (List.mem_cons_of_mem _ hs))
    rw [imageAfter, List.foldl_cons]
    rw [Rule.written_eq hb] at hrest ⊢
    rw [MemoryMap.bitAt_setBitAt, if_neg hne] at hrest
    exact hrest

theorem imageAfter_bitAt_last {rules : List Rule} (h : ∀ r ∈ rules, r.Valid) (mem : MemoryMap)
    {a : SignalAddr} {j : Nat} {r : Rule} (hr : rules[j]? = some r) (ha : r.output = a.ref)
    (hlast : ∀ s ∈ rules.drop (j + 1), s.output ≠ a.ref) :
    (imageAfter rules mem).bitAt a = r.condition.value (imageAfter (rules.take j) mem) := by
  have hsplit : imageAfter rules mem =
      imageAfter (rules.drop (j + 1)) (imageAfter (rules.take (j + 1)) mem) := by
    rw [imageAfter, imageAfter, imageAfter, ← List.foldl_append, List.take_append_drop]
  rw [hsplit, imageAfter_bitAt_of_not_output (fun s hs => h s (List.mem_of_mem_drop hs)) _ hlast,
    imageAfter_take_succ hr, Rule.written_eq ha, MemoryMap.bitAt_setBitAt, if_pos rfl]

end Openaslc
