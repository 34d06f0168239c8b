import ChoiceLogic.Text.Blank

/-! # Trimming

A text is trimmed when neither its first nor its last character is blank. So it depends only on the
ends of a text that is put together, and blanks around a trimmed text are all that trimming takes.
-/

namespace ChoiceLogic.Text

variable {t u v g h : Text}

def Blank (t : Text) : Prop :=
  ∀ c ∈ t, isBlank c

instance (t : Text) : Decidable (Blank t) :=
  decidable_of_iff (t.all isBlank) (by simp [Blank])

theorem trimEnd_eq_reverse (t : Text) : trimEnd t = (trimStart t.reverse).reverse := rfl

theorem trimEnd_eq_self_iff : trimEnd t = t ↔ ∀ s c, t = s ++ [c] → isBlank c = false := by
  rw [trimEnd_eq_reverse, List.reverse_eq_iff, trimStart_eq_self_iff]
  constructor
  · intro first s c same
    exact first c s.reverse (by simp [same])
  · intro last c r same
    exact last r.reverse c (List.reverse_eq_iff.mp same |>.trans (by simp))

theorem trimmed_iff : Trimmed t ↔ t ≠ [] ∧ (∀ c r, t = c :: r → isBlank c = false) ∧
    ∀ s c, t = s ++ [c] → isBlank c = false := by
  refine and_congr_right fun _ => ?_
  rw [← trimStart_eq_self_iff, ← trimEnd_eq_self_iff]
  constructor
  · intro whole
    have start : trimStart t = t := whole ▸ trimStart_trim t
    refine ⟨start, ?_⟩
    rw [trim, start] at whole
    exact whole
  · intro ends
    obtain ⟨start, last⟩ := ends
    rw [trim, start, last]

theorem Trimmed.ne_nil (ht : Trimmed t) : t ≠ [] := ht.1

theorem Trimmed.first (ht : Trimmed t) : ∃ c r, t = c :: r ∧ isBlank c = false := by
  obtain ⟨c, r, rfl⟩ := List.exists_cons_of_ne_nil ht.1
  exact ⟨c, r, rfl, (trimmed_iff.mp ht).2.1 c r rfl⟩

theorem Trimmed.last (ht : Trimmed t) : ∃ s c, t = s ++ [c] ∧ isBlank c = false := by
  have whole := (List.dropLast_concat_getLast ht.1).symm
  exact ⟨_, _, whole, (trimmed_iff.mp ht).2.2 _ _ whole⟩

theorem Trimmed.not_blank_of_prefix (ht : Trimmed t) (start : u <+: t) (nonempty : u ≠ []) :
    ¬ Blank u := by
  obtain ⟨c, r, rfl, hc⟩ := ht.first
  obtain ⟨d, u, rfl⟩ := List.exists_cons_of_ne_nil nonempty
  obtain ⟨rfl, -⟩ := List.cons_prefix_cons.mp start
  intro blank
  exact absurd (blank d (.head u)) (by simp [hc])

theorem Trimmed.not_blank_of_suffix (ht : Trimmed t) (stop : u <:+ t) (nonempty : u ≠ []) :
    ¬ Blank u := by
  obtain ⟨s, c, rfl, hc⟩ := ht.last
  rcases List.suffix_concat_iff.mp stop with rfl | ⟨v, rfl, -⟩
  · exact absurd rfl nonempty
  · intro blank
    exact absurd (blank c (by simp)) (by simp [hc])

theorem trimmed_of_ends {c d : Char} {r s : Text} (first : t = c :: r) (hc : isBlank c = false)
    (last : t = s ++ [d]) (hd : isBlank d = false) : Trimmed t := by
  refine trimmed_iff.mpr ⟨by simp [first], fun c' r' same => ?_, fun s' d' same => ?_⟩
  · rw [first] at same
    rwa [← (List.cons.inj same).1]
  · rw [last] at same
    have := (List.append_inj_right' same rfl)
    rwa [← (List.cons.inj this).1]

theorem Trimmed.append (hu : Trimmed u) (hv : Trimmed v) (between : Text) :
    Trimmed (u ++ between ++ v) := by
  obtain ⟨c, r, rfl, hc⟩ := hu.first
  obtain ⟨s, d, rfl, hd⟩ := hv.last
  refine trimmed_of_ends (r := r ++ between ++ (s ++ [d])) (s := c :: r ++ between ++ s) ?_ hc ?_ hd
  · simp
  · simp

theorem trimmed_enclosed (t : Text) : Trimmed ('(' :: (t ++ [')'])) :=
  trimmed_of_ends rfl (by decide) (s := '(' :: t) rfl (by decide)

theorem Trimmed.intercalate {ps : List Text} (separator : Text) (nonempty : ps ≠ [])
    (each : ∀ p ∈ ps, Trimmed p) : Trimmed (separator.intercalate ps) := by
  induction ps with
  | nil => exact absurd rfl nonempty
  | cons p ps ih =>
      cases ps with
      | nil => simpa using each p (.head _)
      | cons q ps =>
          rw [List.intercalate_cons_cons]
          exact (each p (.head _)).append
            (ih (List.cons_ne_nil q ps) fun r hr => each r (.tail p hr)) separator

theorem trim_blank (hg : Blank g) : trim g = [] := by
  have start : trimStart g = [] := by
    have dropped : trimStart (g ++ []) = trimStart [] := List.dropWhile_append_of_pos hg
    rwa [List.append_nil] at dropped
  rw [trim, start]
  rfl

/-- Blanks around a trimmed text are dropped. -/
theorem Trimmed.trim_padded (ht : Trimmed t) (hg : Blank g) (hh : Blank h) :
    trim (g ++ t ++ h) = t := by
  obtain ⟨c, r, rfl, hc⟩ := ht.first
  obtain ⟨s, d, last, hd⟩ := ht.last
  have start : trimStart (g ++ (c :: r) ++ h) = c :: r ++ h := by
    rw [trimStart, List.append_assoc, List.dropWhile_append_of_pos hg]
    simp [hc]
  have stop : trimStart (c :: r ++ h).reverse = (c :: r).reverse := by
    rw [trimStart, List.reverse_append,
      List.dropWhile_append_of_pos fun x hx => hh x (List.mem_reverse.mp hx), last]
    simp [hd]
  rw [trim, start, trimEnd_eq_reverse, stop, List.reverse_reverse]

/-- A text is what is left of it and the blanks that trimming took. -/
theorem padded_trim (t : Text) : ∃ g h, Blank g ∧ Blank h ∧ t = g ++ trim t ++ h := by
  let rest := trimStart t
  refine ⟨t.takeWhile isBlank, (rest.reverse.takeWhile isBlank).reverse, ?_, ?_, ?_⟩
  · exact fun c hc => List.all_eq_true.mp (List.all_takeWhile) c hc
  · exact fun c hc => List.all_eq_true.mp (List.all_takeWhile) c (List.mem_reverse.mp hc)
  · have stop : trim t ++ (rest.reverse.takeWhile isBlank).reverse = rest := by
      rw [trim, trimEnd_eq_reverse, ← List.reverse_append]
      exact (congrArg List.reverse List.takeWhile_append_dropWhile).trans (List.reverse_reverse _)
    rw [List.append_assoc, stop]
    exact List.takeWhile_append_dropWhile.symm

end ChoiceLogic.Text
