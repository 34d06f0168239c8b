import ChoiceLogic.Text.Basic

/-! # Cutting text at a separator

A separator is looked for from left to right, and the search goes on behind each one that is found,
so the separators that are found do not overlap.
-/

namespace ChoiceLogic.Text

/-- Some part of the text is `part`. -/
def occurs (part : Text) : Text → Bool
  | [] => part.isEmpty
  | c :: rest => part.isPrefixOf (c :: rest) || occurs part rest

/-- Pieces of what follows the next `skip` characters. -/
def cutAfter (separator : Text) : (skip : Nat) → Text → List Text
  | _, [] => [[]]
  | skip + 1, _ :: rest => cutAfter separator skip rest
  | 0, c :: rest =>
    if separator.isPrefixOf (c :: rest) then
      [] :: cutAfter separator (separator.length - 1) rest
    else
      (cutAfter separator 0 rest).modifyHead (c :: ·)

/-- The pieces between the separators: one more than there are separators, and so at least one. -/
def cut (separator t : Text) : List Text :=
  cutAfter separator 0 t

theorem cutAfter_eq (separator : Text) (skip : Nat) (t : Text) :
    cutAfter separator skip t = cut separator (t.drop skip) := by
  induction skip generalizing t with
  | zero => rfl
  | succ skip ih =>
    cases t with
    | nil => rfl
    | cons c t => exact ih t

theorem cut_nil (separator : Text) : cut separator [] = [[]] := rfl

theorem cut_cons (separator : Text) (c : Char) (rest : Text) :
    cut separator (c :: rest) =
      if separator.isPrefixOf (c :: rest) then
        [] :: cut separator (rest.drop (separator.length - 1))
      else (cut separator rest).modifyHead (c :: ·) := by
  rw [← cutAfter_eq]
  rfl

theorem cut_ne_nil (separator t : Text) : cut separator t ≠ [] := by
  induction t with
  | nil => simp [cut_nil]
  | cons c rest ih => rw [cut_cons]; split <;> simp [ih]

end ChoiceLogic.Text
