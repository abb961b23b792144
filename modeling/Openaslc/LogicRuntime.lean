import Openaslc.LogicParser

/-! The hot-swap wrapper. Program objects live behind shared pointers, and a
cycle mutates the timers of the object it runs; an address names an object. -/

namespace Openaslc

structure LogicRuntime where
  period : Int64
  objects : List LogicProgram
  current : Option Nat
  live : ∀ a ∈ current, a < objects.length

namespace LogicRuntime

/-- `LogicRuntime(period, nullptr)`. -/
def empty (period : Int64) : LogicRuntime := ⟨period, [], none, by simp⟩

def object (rt : LogicRuntime) (a : Nat) : LogicProgram := rt.objects.getD a {}

def store (rt : LogicRuntime) (a : Nat) (p : LogicProgram) : LogicRuntime :=
  { rt with objects := rt.objects.set a p, live := by simpa using rt.live }

/-- `std::make_shared`: the object goes to the next free address. -/
def allocate (rt : LogicRuntime) (p : LogicProgram) : LogicRuntime :=
  { rt with
    objects := rt.objects ++ [p]
    live := fun a ha => by
      have hlt := rt.live a ha
      rw [List.length_append]
      omega }

def reload (rt : LogicRuntime) (newProgram : Option Nat)
    (h : ∀ a ∈ newProgram, a < rt.objects.length) : LogicRuntime :=
  { rt with current := newProgram, live := h }

theorem lt_length_allocate (rt : LogicRuntime) (p : LogicProgram) :
    ∀ a ∈ some rt.objects.length, a < (rt.allocate p).objects.length := by
  rintro a ⟨⟩
  simp [allocate]

/-- Parsing comes first; the swap is reached only by a document that parses. -/
def reloadFromJson (rt : LogicRuntime) (doc : Json) : Except Exception (LogicRuntime × Nat) := do
  let parsed ← LogicProgram.fromJson doc rt.period
  let rt' := (rt.allocate parsed).reload (some rt.objects.length) (rt.lt_length_allocate parsed)
  return (rt', rt.objects.length)

def getCurrent (rt : LogicRuntime) : Option LogicProgram := rt.current.map rt.object

def executeCycle (rt : LogicRuntime) (mem : MemoryMap) : Except Fault (LogicRuntime × MemoryMap) :=
  match rt.current with
  | some a => do
    let (p, mem) ← (rt.object a).execute mem
    return (rt.store a p, mem)
  | none => return (rt, mem)

@[simp] theorem object_store_self (rt : LogicRuntime) {a : Nat} (h : a < rt.objects.length)
    (p : LogicProgram) : (rt.store a p).object a = p := by
  simp [object, store, List.getD_eq_getElem?_getD, h]

@[simp] theorem object_store_ne (rt : LogicRuntime) {a b : Nat} (h : b ≠ a) (p : LogicProgram) :
    (rt.store a p).object b = rt.object b := by
  simp [object, store, List.getD_eq_getElem?_getD, List.getElem?_set_ne (Ne.symm h)]

theorem object_allocate_of_lt (rt : LogicRuntime) {a : Nat} (h : a < rt.objects.length)
    (p : LogicProgram) : (rt.allocate p).object a = rt.object a := by
  simp [object, allocate, List.getD_eq_getElem?_getD, List.getElem?_append_left h]

@[simp] theorem object_allocate_new (rt : LogicRuntime) (p : LogicProgram) :
    (rt.allocate p).object rt.objects.length = p := by
  simp [object, allocate, List.getD_eq_getElem?_getD]

@[simp] theorem current_store (rt : LogicRuntime) (a : Nat) (p : LogicProgram) :
    (rt.store a p).current = rt.current := rfl

@[simp] theorem length_store (rt : LogicRuntime) (a : Nat) (p : LogicProgram) :
    (rt.store a p).objects.length = rt.objects.length := by
  simp [store]

@[simp] theorem length_allocate (rt : LogicRuntime) (p : LogicProgram) :
    (rt.allocate p).objects.length = rt.objects.length + 1 := by
  simp [allocate]

/-- A reload that returns has built the fresh program in a new object and made
it current. -/
theorem reloadFromJson_ok {rt rt' : LogicRuntime} {doc : Json} {a : Nat}
    (h : rt.reloadFromJson doc = .ok (rt', a)) :
    ∃ p, LogicProgram.fromJson doc rt.period = .ok p ∧ a = rt.objects.length ∧
      rt' = (rt.allocate p).reload (some rt.objects.length) (rt.lt_length_allocate p) := by
  rw [reloadFromJson] at h
  cases hp : LogicProgram.fromJson doc rt.period with
  | error e =>
    rw [hp] at h
    cases h
  | ok p =>
    rw [hp] at h
    cases h
    exact ⟨p, rfl, rfl, rfl⟩

theorem getCurrent_reload_allocate (rt : LogicRuntime) (p : LogicProgram) :
    ((rt.allocate p).reload (some rt.objects.length) (rt.lt_length_allocate p)).getCurrent =
      some p := congrArg some (rt.object_allocate_new p)

end LogicRuntime

end Openaslc
