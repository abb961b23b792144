import Openaslc.Sha256
import Openaslc.StandardLibrary

/-! The texts that the archive makes itself, ids and time stamps, consist of
graphic ASCII characters: no separator, no terminator, nothing outside UTF-8. -/

namespace Openaslc

def GraphicChar (c : Char) : Prop := 0x21 ≤ c.toNat ∧ c.toNat < 0x7F

instance (c : Char) : Decidable (GraphicChar c) := inferInstanceAs (Decidable (_ ∧ _))

def Graphic (s : String) : Prop := ∀ c ∈ s.toList, GraphicChar c

theorem Graphic.append {s t : String} (hs : Graphic s) (ht : Graphic t) : Graphic (s ++ t) := by
  intro c hc
  rw [String.toList_append, List.mem_append] at hc
  exact hc.elim (hs c) (ht c)

theorem Graphic.notMem {s : String} (hs : Graphic s) {c : Char} (hc : ¬ GraphicChar c) :
    c ∉ s.toList :=
  fun hmem => hc (hs c hmem)

theorem graphic_digitChar (n : Nat) : GraphicChar n.digitChar := by
  by_cases hn : n < 16
  · have hall : ∀ k < 16, GraphicChar k.digitChar := by decide
    exact hall n hn
  · have hstar : n.digitChar = '*' := Nat.digitChar_eq_star.mpr (by omega)
    rw [hstar]
    decide

theorem graphic_toDigits {b : Nat} (hb : 1 < b) (n : Nat) : ∀ c ∈ Nat.toDigits b n, GraphicChar c := by
  induction n using Nat.strongRecOn with
  | ind n ih =>
    by_cases hn : n < b
    · rw [Nat.toDigits_of_lt_base hn]
      intro c hc
      rw [List.mem_singleton.mp hc]
      exact graphic_digitChar n
    · rw [Nat.toDigits_of_base_le hb (Nat.not_lt.mp hn)]
      intro c hc
      rcases List.mem_append.mp hc with hc | hc
      · exact ih (n / b) (Nat.div_lt_self (by omega) hb) c hc
      · rw [List.mem_singleton.mp hc]
        exact graphic_digitChar _

theorem graphic_leftpad {l : List Char} (h : ∀ c ∈ l, GraphicChar c) (width : Nat) :
    Graphic (String.ofList (l.leftpad width '0')) := by
  intro c hc
  rw [String.toList_ofList, List.leftpad] at hc
  rcases List.mem_append.mp hc with hc | hc
  · rw [List.eq_of_mem_replicate hc]
    decide
  · exact h c hc

/-! ### Time stamps -/

theorem graphic_toString_int (n : Int) : Graphic (toString n) := by
  have hdigits : ∀ m : Nat, Graphic (Nat.repr m) := fun m c hc => by
    rw [Nat.repr, String.toList_ofList] at hc
    exact graphic_toDigits (by decide) m c hc
  cases n with
  | ofNat m => exact hdigits m
  | negSucc m =>
    have hminus : Graphic "-" := by simp [Graphic, GraphicChar]
    exact hminus.append (hdigits (m + 1))

theorem graphic_zeroPadded (width : Nat) (value : Int) : Graphic (zeroPadded width value) :=
  graphic_leftpad (graphic_toString_int value) width

theorem currentTimestamp_graphic (now : Int) : Graphic (currentTimestamp now) := by
  have hmarks : Graphic "-" ∧ Graphic "T" ∧ Graphic ":" ∧ Graphic "." ∧ Graphic "Z" := by
    simp [Graphic, GraphicChar]
  obtain ⟨hdash, ht, hcolon, hdot, hz⟩ := hmarks
  have hpad := graphic_zeroPadded
  exact ((((((((((((graphic_toString_int _).append hdash).append (hpad _ _)).append hdash).append
    (hpad _ _)).append ht).append (hpad _ _)).append hcolon).append (hpad _ _)).append
    hcolon).append (hpad _ _)).append hdot |>.append (hpad _ _)).append hz

/-! ### Ids -/

theorem graphic_hexWord (x : UInt32) : Graphic (hexWord x) :=
  graphic_leftpad (graphic_toDigits (by decide) x.toNat) 8

theorem sha256Hex_graphic (input : String) : Graphic (sha256Hex input) := by
  have hword := graphic_hexWord
  exact (((((((hword _).append (hword _)).append (hword _)).append (hword _)).append
    (hword _)).append (hword _)).append (hword _)).append (hword _)

end Openaslc
