import ChoiceLogic.Proofs.Text.Spaced

/-! # Cutting is undone by joining

Joining the pieces again gives the text back, and cutting what was joined gives the pieces back when
no piece contains the separator and no piece but the last ends in its word.
-/

namespace ChoiceLogic.Text

variable {w u v : Text}

theorem cut_spaced_append (w v : Text) : cut (spaced w) (spaced w ++ v) = [] :: cut (spaced w) v := by
  have start : (spaced w).isPrefixOf (spaced w ++ v) :=
    List.isPrefixOf_iff_prefix.mpr (List.prefix_append _ _)
  simp only [spaced, List.cons_append] at start ⊢
  rw [cut_cons, if_pos start, List.length_cons, Nat.add_sub_cancel, List.drop_left]

theorem cut_cons_of_no_start {c : Char} (h : ¬ spaced w <+: c :: u) :
    cut (spaced w) (c :: u) = (cut (spaced w) u).modifyHead (c :: ·) := by
  rw [cut_cons, if_neg (by rwa [List.isPrefixOf_iff_prefix])]

/-- Induction along the pieces: a text starts with the separator or it does not. -/
theorem cut_induction {motive : Text → Prop} (w : Text) (nil : motive [])
    (separator : ∀ u, motive u → motive (spaced w ++ u))
    (cons : ∀ c u, ¬ spaced w <+: c :: u → motive u → motive (c :: u)) (u : Text) : motive u := by
  induction n : u.length using Nat.strongRecOn generalizing u with
  | ind n ih =>
      subst n
      cases u with
      | nil => exact nil
      | cons c u =>
          by_cases h : spaced w <+: c :: u
          · obtain ⟨rest, hrest⟩ := h
            rw [← hrest] at ih ⊢
            have shorter : rest.length < (spaced w ++ rest).length := by
              simp [spaced_length]
            exact separator rest (ih _ shorter rest rfl)
          · exact cons c u h (ih u.length (by simp) u rfl)

theorem cut_of_not_inside (h : ¬ spaced w <:+: u) : cut (spaced w) u = [u] := by
  induction u with
  | nil => rfl
  | cons c u ih =>
      have later : ¬ spaced w <:+: u := fun inner => h (List.infix_cons inner)
      rw [cut_cons_of_no_start fun start => h start.isInfix, ih later]
      rfl

private theorem modifyHead_append {α : Type} {f : α → α} {xs ys : List α} (h : xs ≠ []) :
    (xs ++ ys).modifyHead f = xs.modifyHead f ++ ys := by
  obtain ⟨x, xs, rfl⟩ := List.exists_cons_of_ne_nil h
  rfl

theorem cut_append_spaced (hw : IsWord w) (apart : ¬ EndsIn w u) (v : Text) :
    cut (spaced w) (u ++ spaced w ++ v) = cut (spaced w) u ++ cut (spaced w) v := by
  induction u using cut_induction w with
  | nil => exact cut_spaced_append w v
  | separator u ih =>
      have later : ¬ EndsIn w u := fun ends => apart (ends.trans (List.suffix_append _ u))
      simp only [List.append_assoc] at ih ⊢
      rw [cut_spaced_append, cut_spaced_append, ih later, List.cons_append]
  | cons c u start ih =>
      have later : ¬ EndsIn w u := fun ends => apart (ends.trans (List.suffix_cons c u))
      have longer : ¬ spaced w <+: c :: (u ++ spaced w ++ v) := by
        intro h
        rw [List.append_assoc, ← List.cons_append] at h
        exact start ((spaced_prefix_append_cons (List.cons_ne_nil c u)
          (hw.not_mem_of_isBlank isBlank_space) fun _ => apart).mp h)
      rw [List.cons_append, List.cons_append, cut_cons_of_no_start longer, ih later,
        cut_cons_of_no_start start, modifyHead_append (cut_ne_nil _ u)]

theorem intercalate_cut (w u : Text) : (spaced w).intercalate (cut (spaced w) u) = u := by
  induction u using cut_induction w with
  | nil => rfl
  | separator u ih =>
      obtain ⟨p, ps, pieces⟩ := List.exists_cons_of_ne_nil (cut_ne_nil (spaced w) u)
      rw [cut_spaced_append, pieces, List.intercalate_cons_cons, ← pieces, ih, List.nil_append]
  | cons c u start ih =>
      obtain ⟨p, ps, pieces⟩ := List.exists_cons_of_ne_nil (cut_ne_nil (spaced w) u)
      rw [pieces] at ih
      rw [cut_cons_of_no_start start, pieces, List.modifyHead_cons, ← ih]
      cases ps with
      | nil => simp
      | cons q ps => simp only [List.intercalate_cons_cons, List.cons_append]

theorem intercalate_cons_eq_flatMap (separator p : Text) (ps : List Text) :
    separator.intercalate (p :: ps) = p ++ ps.flatMap (separator ++ ·) := by
  induction ps generalizing p with
  | nil => simp
  | cons q ps ih =>
      rw [List.intercalate_cons_cons, ih, List.flatMap_cons, List.append_assoc, List.append_assoc]

theorem not_inside_of_mem_cut {p : Text} (h : p ∈ cut (spaced w) u) : ¬ spaced w <:+: p := by
  induction u using cut_induction w generalizing p with
  | nil =>
      obtain rfl := List.mem_singleton.mp h
      exact fun inside => absurd (List.eq_nil_of_infix_nil inside) (List.cons_ne_nil _ _)
  | separator u ih =>
      rw [cut_spaced_append] at h
      rcases List.mem_cons.mp h with rfl | h
      · exact fun inside => absurd (List.eq_nil_of_infix_nil inside) (List.cons_ne_nil _ _)
      · exact ih h
  | cons c u start ih =>
      obtain ⟨q, qs, pieces⟩ := List.exists_cons_of_ne_nil (cut_ne_nil (spaced w) u)
      rw [cut_cons_of_no_start start, pieces, List.modifyHead_cons] at h
      rw [pieces] at ih
      rcases List.mem_cons.mp h with rfl | h
      · intro inside
        rcases List.infix_cons_iff.mp inside with here | later
        · -- The first piece starts the text, and the separator would start it, too.
          have first : q <+: u := by
            rw [← intercalate_cut w u, pieces, intercalate_cons_eq_flatMap]
            exact List.prefix_append _ _
          exact start (here.trans ((List.prefix_cons_inj c).mpr first))
        · exact ih (.head qs) later
      · exact ih (.tail q h)

/-- What was joined is cut where it was joined and wherever its parts are cut. -/
theorem cut_intercalate_flatMap (hw : IsWord w) {ps : List Text} (nonempty : ps ≠ [])
    (apart : ∀ p ∈ ps.dropLast, ¬ EndsIn w p) :
    cut (spaced w) ((spaced w).intercalate ps) = ps.flatMap (cut (spaced w)) := by
  induction ps with
  | nil => exact absurd rfl nonempty
  | cons p ps ih =>
      cases ps with
      | nil => simp
      | cons q ps =>
          have later := ih (List.cons_ne_nil q ps) fun r hr => apart r (.tail p hr)
          rw [List.intercalate_cons_cons, cut_append_spaced hw (apart p (.head _)), later]
          rfl

theorem cut_intercalate (hw : IsWord w) {ps : List Text} (nonempty : ps ≠ [])
    (inside : ∀ p ∈ ps, ¬ spaced w <:+: p) (apart : ∀ p ∈ ps.dropLast, ¬ EndsIn w p) :
    cut (spaced w) ((spaced w).intercalate ps) = ps := by
  have single : ps.map (cut (spaced w)) = ps.map ([·]) :=
    List.map_congr_left fun p hp => cut_of_not_inside (inside p hp)
  rw [cut_intercalate_flatMap hw nonempty apart, List.flatMap_def, single, ← List.flatMap_def,
    List.flatMap_singleton']

theorem infix_intercalate {ps : List Text} {p : Text} (separator : Text) (h : p ∈ ps) :
    p <:+: separator.intercalate ps := by
  induction ps with
  | nil => cases h
  | cons q ps ih =>
      cases ps with
      | nil => simp [List.mem_singleton.mp h]
      | cons r ps =>
          rw [List.intercalate_cons_cons]
          rcases List.mem_cons.mp h with rfl | h
          · rw [List.append_assoc]
            exact (List.prefix_append _ _).isInfix
          · exact (ih h).trans (List.suffix_append _ _).isInfix

end ChoiceLogic.Text
