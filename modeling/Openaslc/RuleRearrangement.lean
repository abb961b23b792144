import Openaslc.Rearrangement
import Openaslc.RuleOrder

/-! Writing the rules of a document in another order. Only pairs of rules that
meet must keep theirs. -/

namespace Openaslc

open Relation

instance (r s : Rule) : Decidable (r.Independent s) :=
  decidable_of_iff (r.output ≠ s.output ∧ s.output ∉ r.condition.refs ∧ r.output ∉ s.condition.refs)
    ⟨fun h => ⟨h.1, h.2.1, h.2.2⟩, fun h => ⟨h.output, h.left, h.right⟩⟩

namespace LogicProgram

variable {ι : Type} {rules : ι → Rule} {l m : List ι}

abbrev Rearranged (rules : ι → Rule) : List ι → List ι → Prop :=
  Rearrangement.Reaches fun i j => (rules i).Independent (rules j)

theorem exchanged_of_swap
    (h : Rearrangement.Swap (fun i j => (rules i).Independent (rules j)) l m) :
    ∃ i, Exchanged i ⟨l.map rules⟩ ⟨m.map rules⟩ ∧
      ∀ (rules' : ι → Rule) (p q : LogicProgram), Exchanged i p q → p.rules = l.map rules' →
        q.rules = m.map rules' := by
  obtain ⟨pre, a, b, post, rfl, rfl, hind⟩ := h
  refine ⟨pre.length, ?_, ?_⟩
  · exact ⟨pre.map rules, rules a, rules b, post.map rules, by simp, by simp, by simp, hind⟩
  · intro rules' p q hex hp
    obtain ⟨pre', r, s, post', hpr, hqr, hlen, _⟩ := hex
    rw [hpr, List.map_append, List.map_cons, List.map_cons] at hp
    have hsame : pre'.length = (pre.map rules').length := by rw [hlen, List.length_map]
    obtain ⟨hpre, hrest⟩ := List.append_inj hp hsame
    obtain ⟨hr, hrest⟩ := List.cons.inj hrest
    obtain ⟨hs, hpost⟩ := List.cons.inj hrest
    rw [hqr, hpre, hr, hs, hpost, List.map_append, List.map_cons, List.map_cons]

/-- Two orders of the same rules after the same calls: the same image, and each
rule with the same timers. -/
structure SameAfter (rules : ι → Rule) (l m : List ι) (env : Nat → MemoryMap → MemoryMap)
    (mem : MemoryMap) (k : Nat) : Prop where
  valid : LogicProgram.Valid ⟨m.map rules⟩
  timers : ∀ rules' : ι → Rule, (after env ⟨l.map rules⟩ mem k).1.rules = l.map rules' →
    (after env ⟨m.map rules⟩ mem k).1.rules = m.map rules'
  image : (after env ⟨m.map rules⟩ mem k).2 = (after env ⟨l.map rules⟩ mem k).2

theorem Rearranged.sameAfter (h : Rearranged rules l m) (hl : LogicProgram.Valid ⟨l.map rules⟩)
    (env : Nat → MemoryMap → MemoryMap) (mem : MemoryMap) (k : Nat) :
    SameAfter rules l m env mem k := by
  induction h with
  | refl => exact ⟨hl, fun _ hr => hr, rfl⟩
  | tail _ hswap ih =>
    obtain ⟨i, hex, hkept⟩ := exchanged_of_swap hswap
    obtain ⟨hafter, himage⟩ := after_exchanged hex ih.valid env mem k
    exact ⟨hex.valid ih.valid, fun rules' hr => hkept rules' _ _ hafter (ih.timers rules' hr),
      himage.trans ih.image⟩

theorem length_after (env : Nat → MemoryMap → MemoryMap) (p : LogicProgram) (mem : MemoryMap) (k : Nat) :
    (after env p mem k).1.rules.length = p.rules.length := by
  induction k with
  | zero => rfl
  | succ k ih =>
    simp only [after, ticked]
    rw [length_tickRules, ih]

/-- The rules of a document in any order that turns round only rules which do
not meet: every call of every run leaves the same image, and every rule with
the same timers. -/
theorem rules_rearranged {doc : Json} {period : Int64} {prog : LogicProgram}
    (h : fromJson doc period = .ok prog) (σ : Equiv.Perm (Fin prog.rules.length))
    (hind : ∀ i j, i < j → σ j < σ i → (prog.rules.get (σ j)).Independent (prog.rules.get (σ i)))
    (env : Nat → MemoryMap → MemoryMap) (mem : MemoryMap) (k : Nat) :
    ∃ (rules' : Fin prog.rules.length → Rule) (image : MemoryMap),
      prog.scan env mem k = .ok (⟨List.ofFn rules'⟩, image) ∧
      scan env ⟨List.ofFn (prog.rules.get ∘ σ)⟩ mem k = .ok (⟨List.ofFn (rules' ∘ σ)⟩, image) := by
  have hvalid := valid_of_fromJson h
  have hmap : (List.finRange prog.rules.length).map prog.rules.get = prog.rules := by
    rw [← List.ofFn_eq_map, List.ofFn_get]
  have hp : (⟨(List.finRange prog.rules.length).map prog.rules.get⟩ : LogicProgram) = prog := by
    rw [hmap]
  have hq : (⟨((List.finRange prog.rules.length).map σ).map prog.rules.get⟩ : LogicProgram) =
      ⟨List.ofFn (prog.rules.get ∘ σ)⟩ := by
    rw [List.map_map, List.ofFn_eq_map]
  have hsame := Rearranged.sameAfter (Rearrangement.reaches_permuted σ hind) (by rw [hp]; exact hvalid)
    env mem k
  have hlen := length_after env prog mem k
  -- the timers of the rule at each place of the document
  obtain ⟨rules', hrules'⟩ : ∃ rules' : Fin prog.rules.length → Rule,
      (after env prog mem k).1.rules = List.ofFn rules' :=
    ⟨fun i => (after env prog mem k).1.rules.get (i.cast hlen.symm), by
      rw [← List.ofFn_congr hlen, List.ofFn_get]⟩
  have hfinal := hsame.timers rules' (by rw [hp, hrules', List.ofFn_eq_map])
  have himage := hsame.image
  have hvalid' := hsame.valid
  rw [hq, List.map_map, ← List.ofFn_eq_map] at hfinal
  rw [hq] at hvalid'
  rw [hp, hq] at himage
  refine ⟨rules', (after env prog mem k).2, ?_, ?_⟩
  · rw [scan_eq hvalid, ← hrules']
  · rw [scan_eq hvalid', ← himage, ← hfinal]

/-! ### The document in another order -/

end LogicProgram

/-- A rule reads the same at another index, but for an id that is not written. -/
theorem RuleSpec.Denoted.reindexed {r : RuleSpec} {index : Nat} {j : Json} (h : r.Denoted index j)
    (index' : Nat) : ∃ id : String, ({ r with id } : RuleSpec).Denoted index' j := by
  obtain ⟨hobject, hid, hout, hcond⟩ := h
  cases hfield : j.field? "id" with
  | none =>
    exact ⟨"rules[" ++ toString index' ++ "]", hobject, by simp only [hfield], hout, hcond⟩
  | some field =>
    simp only [hfield] at hid
    exact ⟨r.id, hobject, by simp only [hfield, hid], hout, hcond⟩

theorem RulesDenoted.exists_ofFn {rs : List RuleSpec} {n index : Nat} {js : Fin n → Json}
    (h : RulesDenoted rs index (List.ofFn js)) : ∃ specs : Fin n → RuleSpec,
      rs = List.ofFn specs ∧ ∀ i : Fin n, (specs i).Denoted (index + i) (js i) := by
  induction n generalizing rs index with
  | zero =>
    rw [List.ofFn_zero] at h
    cases rs with
    | nil => exact ⟨Fin.elim0, rfl, fun i => i.elim0⟩
    | cons r rs =>
      obtain ⟨_, _, hsplit, _⟩ := h
      cases hsplit
  | succ n ih =>
    rw [List.ofFn_succ] at h
    cases rs with
    | nil => cases h
    | cons r rs =>
      obtain ⟨j, js', hsplit, hr, hrs⟩ := h
      obtain ⟨rfl, rfl⟩ := List.cons.inj hsplit
      obtain ⟨specs, rfl, hspecs⟩ := ih hrs
      refine ⟨Fin.cons r specs, by rw [List.ofFn_cons], fun i => ?_⟩
      cases i using Fin.cases with
      | zero => exact hr
      | succ i =>
        have hindex : index + i.succ.val = index + 1 + i.val := by rw [Fin.val_succ]; omega
        rw [Fin.cons_succ, hindex]
        exact hspecs i

theorem rulesDenoted_ofFn {n index : Nat} {specs : Fin n → RuleSpec} {js : Fin n → Json}
    (h : ∀ i : Fin n, (specs i).Denoted (index + i) (js i)) :
    RulesDenoted (List.ofFn specs) index (List.ofFn js) := by
  induction n generalizing index with
  | zero => rfl
  | succ n ih =>
    rw [List.ofFn_succ, List.ofFn_succ]
    refine ⟨_, _, rfl, h 0, ih fun i => ?_⟩
    have hindex : index + 1 + i.val = index + i.succ.val := by rw [Fin.val_succ]; omega
    rw [hindex]
    exact h i.succ

namespace LogicProgram

/-- An accepted document with its rules in another order is accepted too, and its
program has the rules in that order, but for the ids that are not written. -/
theorem fromJson_rearranged {doc doc' : Json} {period : Int64} {prog : LogicProgram}
    (h : fromJson doc period = .ok prog) {elements : Fin prog.rules.length → Json}
    (hrules : doc.field? "rules" = some (.array (List.ofFn elements)))
    (σ : Equiv.Perm (Fin prog.rules.length))
    (hrules' : doc'.field? "rules" = some (.array (List.ofFn (elements ∘ σ)))) :
    ∃ ids : Fin prog.rules.length → String,
      fromJson doc' period = .ok ⟨List.ofFn fun i => { prog.rules.get (σ i) with id := ids i }⟩ := by
  obtain ⟨rules, ⟨js, hjs, hdenoted⟩, hprog⟩ := specs_of_fromJson h
  obtain rfl : List.ofFn elements = js := Json.array.inj (Option.some.inj (hrules.symm.trans hjs))
  obtain ⟨specs, rfl, hspecs⟩ := hdenoted.exists_ofFn
  have hid : ∀ i : Fin prog.rules.length, ∃ id : String,
      ({ specs (σ i) with id } : RuleSpec).Denoted (0 + i) (elements (σ i)) :=
    fun i => (hspecs (σ i)).reindexed (0 + i)
  choose ids hids using hid
  have hget : ∀ i, prog.rules.get i = (specs i).rule period.toUInt64 fun _ => 0 := fun i => by
    have hlist := congrArg LogicProgram.rules hprog
    rw [ofSpecs, List.map_ofFn] at hlist
    have helement := List.getElem_of_eq hlist i.isLt
    rwa [List.getElem_ofFn] at helement
  refine ⟨ids, ?_⟩
  rw [fromJson_of_denotes period ⟨_, hrules', rulesDenoted_ofFn hids⟩, ofSpecs, List.map_ofFn]
  have hsame : ((fun r : RuleSpec => r.rule period.toUInt64 fun _ => 0) ∘
      fun i => ({ specs (σ i) with id := ids i } : RuleSpec)) =
      fun i => { prog.rules.get (σ i) with id := ids i } := by
    funext i
    rw [hget (σ i)]
    rfl
  rw [hsame]

/-- `%Q0.0 := TON(%I0.0, 150)`, `%Q1.0 := NOT %Q0.0` and `%Q0.1 := NOT %I0.0`.
The last one meets neither of the others. -/
def followedRules : List RuleSpec :=
  let input : SignalAddr := ⟨.input, ⟨0, getSize_pos .input⟩, 0⟩
  let delayed : SignalAddr := ⟨.output, ⟨0, getSize_pos .output⟩, 0⟩
  [⟨"delayed", delayed, output_ne_input, .tonTimer (.input input) 150⟩,
    ⟨"waiting", ⟨.output, ⟨1, by decide⟩, 0⟩, output_ne_input, .not (.input delayed)⟩,
    ⟨"inverted", ⟨.output, ⟨0, getSize_pos .output⟩, 1⟩, output_ne_input, .not (.input input)⟩]

/-- The last rule written first. -/
theorem rules_rearranged_lastFirst :
    ∃ (rules' : Fin 3 → Rule) (image : MemoryMap),
      (ofSpecs followedRules 100).scan (fun _ => id) {} 3 = .ok (⟨List.ofFn rules'⟩, image) ∧
      scan (fun _ => id) ⟨List.ofFn ((ofSpecs followedRules 100).rules.get ∘ (finRotate 3).symm)⟩ {} 3 =
        .ok (⟨List.ofFn (rules' ∘ (finRotate 3).symm)⟩, image) :=
  rules_rearranged (fromJson_of_denotes 100 (denotes_canonicalDocument followedRules))
    (finRotate 3).symm (by decide) (fun _ => id) {} 3

end LogicProgram

end Openaslc
