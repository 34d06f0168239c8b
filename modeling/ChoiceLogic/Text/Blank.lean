import ChoiceLogic.Text.Basic

/-! # Blank characters

A character is blank when it has the Unicode property `White_Space`. Zero-width characters and the
separators U+001C to U+001F do not have it.
-/

namespace ChoiceLogic.Text

/-- First and last code points of the blank ranges. -/
def blankRanges : List (Nat × Nat) :=
  [(0x0009, 0x000D), (0x0020, 0x0020), (0x0085, 0x0085), (0x00A0, 0x00A0), (0x1680, 0x1680),
   (0x2000, 0x200A), (0x2028, 0x2029), (0x202F, 0x202F), (0x205F, 0x205F), (0x3000, 0x3000)]

def isBlank (c : Char) : Bool :=
  blankRanges.any (fun (first, last) => first ≤ c.toNat && c.toNat ≤ last)

def trimStart (t : Text) : Text :=
  t.dropWhile isBlank

def trimEnd (t : Text) : Text :=
  (t.reverse.dropWhile isBlank).reverse

/-- The text without the blanks at its two ends. -/
def trim (t : Text) : Text :=
  trimEnd (trimStart t)

/-- Not empty, and no blank at either end. -/
def Trimmed (t : Text) : Prop :=
  t ≠ [] ∧ trim t = t

instance (t : Text) : Decidable (Trimmed t) :=
  inferInstanceAs (Decidable (_ ∧ _))

theorem isBlank_of_trimStart_eq_cons {t r : Text} {c : Char} (h : trimStart t = c :: r) :
    isBlank c = false := by
  have first := List.head?_dropWhile_not isBlank t
  rw [show t.dropWhile isBlank = c :: r from h] at first
  exact first

theorem trimStart_eq_self_iff {t : Text} :
    trimStart t = t ↔ ∀ c r, t = c :: r → isBlank c = false := by
  constructor
  · intro h c r whole
    exact isBlank_of_trimStart_eq_cons (h.trans whole)
  · intro h
    cases t with
    | nil => rfl
    | cons c r => simp [trimStart, h c r rfl]

theorem trimStart_trimStart (t : Text) : trimStart (trimStart t) = trimStart t :=
  trimStart_eq_self_iff.2 fun _ _ => isBlank_of_trimStart_eq_cons

theorem trimEnd_trimEnd (t : Text) : trimEnd (trimEnd t) = trimEnd t := by
  rw [trimEnd, trimEnd, List.reverse_reverse]
  exact congrArg List.reverse (trimStart_trimStart t.reverse)

theorem trimEnd_isPrefix (t : Text) : trimEnd t <+: t := by
  have h := List.reverse_prefix.2 (List.dropWhile_suffix isBlank (l := t.reverse))
  rwa [List.reverse_reverse] at h

theorem trimStart_trim (t : Text) : trimStart (trim t) = trim t := by
  refine trimStart_eq_self_iff.2 fun c r h => ?_
  obtain ⟨s, hs⟩ := trimEnd_isPrefix (trimStart t)
  rw [show trimEnd (trimStart t) = c :: r from h] at hs
  exact isBlank_of_trimStart_eq_cons hs.symm

@[simp] theorem trim_trim (t : Text) : trim (trim t) = trim t := by
  rw [trim, trimStart_trim, trim, trimEnd_trimEnd]

theorem trimmed_trim {t : Text} (h : trim t ≠ []) : Trimmed (trim t) :=
  ⟨h, trim_trim t⟩

end ChoiceLogic.Text
