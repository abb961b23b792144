import Openaslc.ConfigArchive
import Openaslc.GraphicText
import Openaslc.JsonText
import Openaslc.Separator

/-! What the hashed string of a commit tells about its contents. -/

namespace Openaslc

@[ext] structure CommitContents where
  payload : String
  author : String
  message : String
  createdAt : String
  deriving DecidableEq

/-- `dump()` without indentation writes one line; a line feed inside a string
is escaped. -/
def JsonLibrary.SingleLine (lib : JsonLibrary) : Prop :=
  ∀ j text, lib.dump j = .ok text → '\n' ∉ text.toList

namespace CommitContents

def input (x : CommitContents) : String := hashInput x.payload x.author x.message x.createdAt

def Real (lib : JsonLibrary) (x : CommitContents) : Prop :=
  (∃ doc, lib.dump doc = .ok x.payload) ∧ ∃ now, x.createdAt = currentTimestamp now

/-- The author of `y` goes on into what is the message of `x`. -/
def TakesOver (x y : CommitContents) : Prop :=
  ∃ s, y.author = x.author ++ "\n" ++ s ∧ x.message = s ++ "\n" ++ y.message

def Ambiguous (x y : CommitContents) : Prop :=
  x.payload = y.payload ∧ x.createdAt = y.createdAt ∧ (TakesOver x y ∨ TakesOver y x)

theorem takesOver_iff {x y : CommitContents} : TakesOver x y ↔
    Separator.Shifted '\n' x.author.toList x.message.toList y.author.toList y.message.toList := by
  have hfeed : "\n".toList = ['\n'] := rfl
  constructor
  · rintro ⟨s, hauthor, hmessage⟩
    refine ⟨s.toList, ?_, ?_⟩
    · simp [hauthor, String.toList_append, hfeed]
    · simp [hmessage, String.toList_append, hfeed]
  · rintro ⟨s, hauthor, hmessage⟩
    refine ⟨String.ofList s, String.toList_inj.mp ?_, String.toList_inj.mp ?_⟩
    · simp [hauthor, String.toList_append, hfeed]
    · simp [hmessage, String.toList_append, hfeed]

theorem toList_input (x : CommitContents) : x.input.toList =
    x.payload.toList ++ '\n' :: (x.author.toList ++ '\n' ::
      (x.message.toList ++ '\n' :: x.createdAt.toList)) := by
  have hfeed : "\n".toList = ['\n'] := rfl
  simp [input, hashInput, String.toList_append, hfeed]

theorem input_eq_iff {lib : JsonLibrary} (hline : lib.SingleLine) {x y : CommitContents}
    (hx : x.Real lib) (hy : y.Real lib) : x.input = y.input ↔ x = y ∨ Ambiguous x y := by
  obtain ⟨⟨doc, hdoc⟩, now, hnow⟩ := hx
  obtain ⟨⟨doc', hdoc'⟩, now', hnow'⟩ := hy
  have hstamp : ∀ now, '\n' ∉ (currentTimestamp now).toList := fun now =>
    (currentTimestamp_graphic now).notMem (by decide)
  rw [← String.toList_inj, toList_input, toList_input, Separator.four_fields (hline doc _ hdoc)
    (hline doc' _ hdoc') (hnow ▸ hstamp now) (hnow' ▸ hstamp now'), Separator.two_fields,
    ← takesOver_iff, ← takesOver_iff, String.toList_inj, String.toList_inj, String.toList_inj,
    String.toList_inj]
  constructor
  · rintro ⟨hpayload, hcreated, ⟨hauthor, hmessage⟩ | htakes⟩
    · exact .inl (CommitContents.ext hpayload hauthor hmessage hcreated)
    · exact .inr ⟨hpayload, hcreated, htakes⟩
  · rintro (rfl | ⟨hpayload, hcreated, htakes⟩)
    · exact ⟨rfl, rfl, .inl ⟨rfl, rfl⟩⟩
    · exact ⟨hpayload, hcreated, .inr htakes⟩

theorem Ambiguous.ne {x y : CommitContents} (h : Ambiguous x y) : x ≠ y := by
  rintro rfl
  obtain ⟨_, _, htakes | htakes⟩ := h
  · exact (takesOver_iff.mp htakes).ne rfl
  · exact (takesOver_iff.mp htakes).ne rfl

/-- The hashed string tells two contents apart exactly when neither author
goes on into the message of the other. -/
theorem input_injective_iff {lib : JsonLibrary} (hline : lib.SingleLine) {x y : CommitContents}
    (hx : x.Real lib) (hy : y.Real lib) : (x.input = y.input → x = y) ↔ ¬ Ambiguous x y := by
  rw [input_eq_iff hline hx hy]
  constructor
  · exact fun h hamb => hamb.ne (h (.inr hamb))
  · exact fun hamb h => h.resolve_right hamb

end CommitContents

/-- `JsonLibrary.plain` on documents without a line feed in a string. -/
def JsonLibrary.oneLine : JsonLibrary where
  parse := (JsonLibrary.plain []).parse
  dump j :=
    if '\n' ∈ (plainText j).toList then .error "[json.exception.type_error.316] invalid UTF-8 byte"
    else (JsonLibrary.plain []).dump j
  dump_noNul := by
    intro j text h
    split at h
    · cases h
    · exact (JsonLibrary.plain []).dump_noNul j text h

theorem JsonLibrary.oneLine_singleLine : JsonLibrary.oneLine.SingleLine := by
  intro j text h
  simp only [oneLine] at h
  split at h
  · cases h
  · next hfeed =>
    cases h
    rw [String.toList_ofList]
    exact fun hmem => hfeed (List.mem_filter.mp hmem).1

theorem JsonLibrary.oneLine_dump {j : Json}
    (h : ((plainText j).toList.all fun c => c != '\n' && c != Char.ofNat 0) = true) :
    JsonLibrary.oneLine.dump j = .ok (plainText j) := by
  have hall : ∀ c ∈ (plainText j).toList, c ≠ '\n' ∧ c ≠ Char.ofNat 0 := by simpa using h
  have hfeed : '\n' ∉ (plainText j).toList := fun hmem => (hall _ hmem).1 rfl
  have hnul : ((plainText j).toList.all fun c => c != Char.ofNat 0) = true := by
    simpa using fun c hc => (hall c hc).2
  simp only [oneLine, if_neg hfeed, JsonLibrary.plain_dump [] hnul]

def noRulesCommit (author message : String) : CommitContents :=
  ⟨plainText noRules, author, message, currentTimestamp 0⟩

theorem noRulesCommit_real (author message : String) :
    (noRulesCommit author message).Real JsonLibrary.oneLine :=
  ⟨⟨noRules, JsonLibrary.oneLine_dump (by decide)⟩, 0, rfl⟩

theorem input_injective_iff_plain :
    ((noRulesCommit "a" "b").input = (noRulesCommit "a" "c").input →
      noRulesCommit "a" "b" = noRulesCommit "a" "c") ↔
      ¬ CommitContents.Ambiguous (noRulesCommit "a" "b") (noRulesCommit "a" "c") :=
  CommitContents.input_injective_iff JsonLibrary.oneLine_singleLine (noRulesCommit_real "a" "b")
    (noRulesCommit_real "a" "c")

/-- The author "a", line feed, "b" with the message "c" is hashed like the
author "a" with the message "b", line feed, "c". -/
theorem input_collision : ∃ x y : CommitContents, x.Real JsonLibrary.oneLine ∧
    y.Real JsonLibrary.oneLine ∧ x.author ≠ y.author ∧ x.message ≠ y.message ∧
    x.input = y.input := by
  refine ⟨noRulesCommit "a" "b\nc", noRulesCommit "a\nb" "c", noRulesCommit_real _ _,
    noRulesCommit_real _ _, by decide, by decide, ?_⟩
  rw [← String.toList_inj, CommitContents.toList_input, CommitContents.toList_input]
  rfl

end Openaslc
