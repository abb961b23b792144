import Openaslc.DeployHandler
import Openaslc.GraphicText
import Openaslc.JsonText
import Openaslc.Utf8

/-! Which values can be dumped: those whose strings are UTF-8. -/

namespace Openaslc

def ValidUtf8 (s : String) : Prop := Utf8.Valid (s.toList.map Char.toNat)

instance (s : String) : Decidable (ValidUtf8 s) := inferInstanceAs (Decidable (Utf8.Valid _))

theorem validUtf8_of_ascii {s : String} (h : ∀ c ∈ s.toList, c.toNat ≤ 0x7F) : ValidUtf8 s :=
  Utf8.valid_of_ascii h

theorem Graphic.validUtf8 {s : String} (h : Graphic s) : ValidUtf8 s :=
  validUtf8_of_ascii fun c hc => Nat.le_of_lt_succ (Nat.lt_trans (h c hc).2 (by decide))

/-- The part of a text before a zero byte is still text. -/
theorem ValidUtf8.cString {s : String} (h : ValidUtf8 s) : ValidUtf8 (cString s) := by
  have hcut : ((s.toList.takeWhile fun c => c ≠ Char.ofNat 0).map Char.toNat) =
      (s.toList.map Char.toNat).takeWhile fun b => b ≠ 0 := by
    have hzero : ∀ c : Char, c.toNat = 0 ↔ c = Char.ofNat 0 := fun c => by
      rw [← Char.toNat_inj]
      rfl
    rw [List.takeWhile_map]
    congr 2
    funext c
    simp [hzero]
  rw [ValidUtf8, Openaslc.cString, String.toList_ofList, hcut]
  exact Utf8.Valid.takeWhile_ne_zero h

mutual

/-- The strings of a value, keys included. -/
def Json.texts : Json → List String
  | .string value => [value]
  | .array elements => elementTexts elements
  | .object members => memberTexts members
  | _ => []

def elementTexts : List Json → List String
  | [] => []
  | element :: rest => element.texts ++ elementTexts rest

def memberTexts : List (String × Json) → List String
  | [] => []
  | (key, value) :: rest => key :: (value.texts ++ memberTexts rest)

end

def Json.ValidText (j : Json) : Prop := ∀ s ∈ j.texts, ValidUtf8 s

instance (j : Json) : Decidable j.ValidText := inferInstanceAs (Decidable (∀ _ ∈ _, _))

/-- `dump` throws exactly for a string that is not UTF-8, and the parser lets
none in. -/
structure JsonLibrary.StrictUtf8 (lib : JsonLibrary) : Prop where
  dump : ∀ j, (∃ text, lib.dump j = .ok text) ↔ j.ValidText
  parse : ∀ text doc, lib.parse text = .ok doc → doc.ValidText

/-! ### Commits -/

structure CommitInfo.ValidText (commit : CommitInfo) : Prop where
  sha256 : ValidUtf8 commit.sha256
  parent : ∀ parent, commit.parentSha256 = some parent → ValidUtf8 parent
  author : ValidUtf8 commit.author
  message : ValidUtf8 commit.message
  createdAt : ValidUtf8 commit.createdAt

theorem CommitInfo.ValidText.row {commit : CommitInfo} (h : commit.ValidText) :
    commit.row.ValidText := by
  refine ⟨h.sha256.cString, fun parent hparent => ?_, h.author.cString, h.message.cString,
    h.createdAt.cString⟩
  obtain ⟨p, hp, rfl⟩ := Option.map_eq_some_iff.mp hparent
  exact (h.parent p hp).cString

def jsonKeys : List String :=
  ["author", "created_at", "message", "parent_sha256", "sha256", "commit", "commits", "rule_count"]

theorem validUtf8_jsonKeys : ∀ key ∈ jsonKeys, ValidUtf8 key := by
  have hascii : (jsonKeys.all fun key => key.toList.all fun c => c.toNat ≤ 0x7F) = true := by
    decide +kernel
  intro key hkey
  refine validUtf8_of_ascii fun c hc => ?_
  simpa using List.all_eq_true.mp (List.all_eq_true.mp hascii key hkey) c hc

theorem validText_commitToJson (commit : CommitInfo) :
    (commitToJson commit).ValidText ↔ commit.ValidText := by
  have hkeys := validUtf8_jsonKeys
  simp only [jsonKeys, List.forall_mem_cons] at hkeys
  obtain ⟨hauthor, hcreated, hmessage, hparent, hsha, _⟩ := hkeys
  have htexts : (commitToJson commit).texts = ["author", commit.author, "created_at",
      commit.createdAt, "message", commit.message, "parent_sha256"] ++
      commit.parentSha256.toList ++ ["sha256", commit.sha256] := by
    rw [commitToJson]
    cases commit.parentSha256 <;> simp [Json.texts, memberTexts]
  rw [Json.ValidText, htexts]
  constructor
  · intro h
    refine ⟨h _ (by simp), fun p hp => h p (by simp [hp]), h _ (by simp), h _ (by simp), h _ (by simp)⟩
  · intro h s hs
    simp only [List.mem_append, List.mem_cons, List.not_mem_nil, or_false, Option.mem_toList] at hs
    rcases hs with ((rfl | rfl | rfl | rfl | rfl | rfl | rfl) | hs) | rfl | rfl
    · exact hauthor
    · exact h.author
    · exact hcreated
    · exact h.createdAt
    · exact hmessage
    · exact h.message
    · exact hparent
    · exact h.parent s hs
    · exact hsha
    · exact h.sha256

theorem mem_elementTexts {elements : List Json} {s : String} :
    s ∈ elementTexts elements ↔ ∃ element ∈ elements, s ∈ element.texts := by
  induction elements with
  | nil => simp [elementTexts]
  | cons element rest ih => simp [elementTexts, ih]

end Openaslc
