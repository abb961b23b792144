import Mathlib

/-! A directory of files by name, and numbered backups of one of them: before a
file takes number 1, the backups move up, the highest number first. -/

namespace FileSystem

variable {κ α : Type} [DecidableEq κ]

abbrev Directory (κ α : Type) := κ → Option α

/-- A rename replaces its target; one that fails changes nothing. -/
def rename (succeeds : Bool) (src dst : κ) (dir : Directory κ α) : Directory κ α :=
  if succeeds && (dir src).isSome && src ≠ dst then
    Function.update (Function.update dir dst (dir src)) src none
  else dir

/-- Moves the files with the numbers below `n` up by one, if they exist. -/
def shift (name : Nat → κ) (succeeds : Nat → Bool) : Nat → Directory κ α → Directory κ α
  | i + 2, dir =>
    shift name succeeds (i + 1) (if (dir (name (i + 1))).isSome then
      rename (succeeds (i + 2)) (name (i + 1)) (name (i + 2)) dir else dir)
  | _, dir => dir

theorem rename_self {src dst : κ} {dir : Directory κ α} (h : src ≠ dst) (hsrc : (dir src).isSome) :
    rename true src dst dir dst = dir src := by
  simp [rename, h, hsrc, Ne.symm h]

theorem rename_src {src dst : κ} {dir : Directory κ α} (h : src ≠ dst) (hsrc : (dir src).isSome) :
    rename true src dst dir src = none := by
  simp [rename, h, hsrc]

theorem rename_ne {succeeds : Bool} {src dst key : κ} {dir : Directory κ α} (hsrc : key ≠ src)
    (hdst : key ≠ dst) : rename succeeds src dst dir key = dir key := by
  unfold rename
  split
  · simp [hsrc, hdst]
  · rfl

theorem shift_ne {name : Nat → κ} {succeeds : Nat → Bool} {key : κ} (h : ∀ i, name i ≠ key) (n : Nat)
    (dir : Directory κ α) : shift name succeeds n dir key = dir key := by
  induction n generalizing dir with
  | zero => simp [shift]
  | succ n ih =>
    cases n with
    | zero => simp [shift]
    | succ i =>
      rw [shift, ih]
      split
      · exact rename_ne (Ne.symm (h _)) (Ne.symm (h _))
      · rfl

theorem rename_next {name : Nat → κ} (hname : Function.Injective name) (m : Nat)
    (dir : Directory κ α) (i : Nat) :
    (if (dir (name m)).isSome then rename true (name m) (name (m + 1)) dir else dir) (name i) =
      if i = m + 1 then (dir (name m)).or (dir (name (m + 1)))
      else if i = m then none else dir (name i) := by
  have hne : name m ≠ name (m + 1) := fun he => by simpa using hname he
  by_cases hsrc : (dir (name m)).isSome
  · rw [if_pos hsrc]
    by_cases hdst : i = m + 1
    · subst hdst
      rw [rename_self hne hsrc, if_pos rfl, Option.or_of_isSome hsrc]
    · by_cases hi : i = m
      · subst hi
        rw [rename_src hne hsrc, if_neg hdst, if_pos rfl]
      · rw [rename_ne (hname.ne hi) (hname.ne hdst), if_neg hdst, if_neg hi]
  · have hnone : dir (name m) = none := by simpa using hsrc
    rw [if_neg hsrc]
    by_cases hdst : i = m + 1
    · simp [hdst, hnone]
    · by_cases hi : i = m
      · simp [hi, hnone]
      · simp [hdst, hi]

theorem shift_apply {name : Nat → κ} {succeeds : Nat → Bool} (hname : Function.Injective name)
    (hsucceeds : ∀ i, succeeds i = true) (n : Nat) (dir : Directory κ α) (i : Nat) :
    shift name succeeds n dir (name i) =
      if n < 2 ∨ i = 0 ∨ n < i then dir (name i)
      else if i = 1 then none
      else if i = n then (dir (name (i - 1))).or (dir (name i))
      else dir (name (i - 1)) := by
  induction n generalizing dir i with
  | zero => simp [shift]
  | succ n ih =>
    cases n with
    | zero => simp [shift]
    | succ m =>
      rw [shift, hsucceeds, ih, rename_next hname, rename_next hname]
      by_cases hlast : i = m + 2
      · subst hlast
        simp
      · by_cases hbefore : i = m + 1
        · subst hbefore
          grind
        · grind

/-- The files with the numbers from 1 on are these, and no others. -/
def Numbered (name : Nat → κ) (dir : Directory κ α) (files : List α) : Prop :=
  ∀ i, dir (name (i + 1)) = files[i]?

/-- Moving the backups up and a file to number 1 puts it in front of the
others, of which the last goes if there is no room. -/
theorem Numbered.rotate {name : Nat → κ} {succeeds : Nat → Bool} {live : κ} {dir : Directory κ α}
    {files : List α} (h : Numbered name dir files) (hname : Function.Injective name)
    (hlive : ∀ i, name i ≠ live) (hsucceeds : ∀ i, succeeds i = true) {n : Nat}
    (hlen : files.length ≤ max 1 n) {text : α} (htext : dir live = some text) :
    Numbered name (rename (succeeds 1) live (name 1) (shift name succeeds n dir))
      ((text :: files).take (max 1 n)) := by
  intro i
  have hkept : shift name succeeds n dir live = some text := by rw [shift_ne hlive, htext]
  rw [hsucceeds, List.getElem?_take]
  cases i with
  | zero =>
    rw [rename_self (Ne.symm (hlive 1)) (by simp [hkept]), hkept]
    simp
  | succ j =>
    rw [rename_ne (hlive _) (hname.ne (by omega)), shift_apply hname hsucceeds, h (j + 1)]
    have hprev : dir (name (j + 1 + 1 - 1)) = files[j]? := h j
    have hbeyond : ∀ k, files.length ≤ k → files[k]? = none := fun k hk => List.getElem?_eq_none hk
    have hgap : files[j]? = none → files[j + 1]? = none := fun hj =>
      hbeyond _ (Nat.le_succ_of_le (List.getElem?_eq_none_iff.mp hj))
    rw [hprev, List.getElem?_cons_succ]
    grind

theorem rotate_live {name : Nat → κ} {succeeds : Nat → Bool} {live : κ} {dir : Directory κ α}
    (hlive : ∀ i, name i ≠ live) (hsucceeds : ∀ i, succeeds i = true) (n : Nat)
    (hsome : (dir live).isSome) :
    rename (succeeds 1) live (name 1) (shift name succeeds n dir) live = none := by
  rw [hsucceeds]
  exact rename_src (Ne.symm (hlive 1)) (by rwa [shift_ne hlive])

end FileSystem
