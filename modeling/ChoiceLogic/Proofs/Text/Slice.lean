import ChoiceLogic.Text.Basic

/-! # Slices

A part of a text can be given by the bytes between which it stands. Not every two bytes give one: a
slice does not run backwards or past the end of the text, and it does not cut a character in two.
-/

namespace ChoiceLogic.Text

variable {t s : Text} {n first last : Nat}

/-- The first so many bytes of a text. -/
def upTo? : Nat → Text → Option Text
  | 0, _ => some []
  | _ + 1, [] => none
  | n + 1, c :: t =>
    if c.utf8Size ≤ n + 1 then (upTo? (n + 1 - c.utf8Size) t).map (c :: ·) else none

/-- All but the first so many bytes of a text. -/
def from? : Nat → Text → Option Text
  | 0, t => some t
  | _ + 1, [] => none
  | n + 1, c :: t => if c.utf8Size ≤ n + 1 then from? (n + 1 - c.utf8Size) t else none

/-- The text between two bytes. -/
def slice? (t : Text) (first last : Nat) : Option Text :=
  if first ≤ last then (upTo? last t).bind (from? first) else none

/-- A character of the text starts at this byte, or the text ends there. -/
def Border (t : Text) (byte : Nat) : Prop :=
  ∃ u, u <+: t ∧ byteSize u = byte

theorem byteSize_eq_zero_iff : byteSize t = 0 ↔ t = [] := by
  cases t with
  | nil => simp
  | cons c t =>
      have pos := c.utf8Size_pos
      simp only [byteSize_cons, reduceCtorEq, iff_false]
      omega

/-- Behind a first character there are the bytes that it leaves. -/
private theorem byteSize_cons_eq_succ_iff {c : Char} :
    byteSize (c :: s) = n + 1 ↔ c.utf8Size ≤ n + 1 ∧ byteSize s = n + 1 - c.utf8Size := by
  rw [byteSize_cons]
  omega

theorem upTo?_eq_some_iff : upTo? n t = some s ↔ s <+: t ∧ byteSize s = n := by
  fun_induction upTo? n t generalizing s with
  | case1 t =>
      simp only [Option.some.injEq, byteSize_eq_zero_iff]
      constructor
      · rintro rfl
        exact ⟨List.nil_prefix, rfl⟩
      · exact fun h => h.2.symm
  | case2 n =>
      simp only [reduceCtorEq, List.prefix_nil, false_iff, not_and]
      rintro rfl
      simp
  | case3 n c t fits ih =>
      simp only [Option.map_eq_some_iff, ih]
      constructor
      · rintro ⟨s, ⟨start, size⟩, rfl⟩
        exact ⟨(List.prefix_cons_inj c).mpr start, byteSize_cons_eq_succ_iff.mpr ⟨fits, size⟩⟩
      · rintro ⟨start, size⟩
        rcases List.prefix_cons_iff.mp start with rfl | ⟨s, rfl, later⟩
        · simp at size
        · exact ⟨s, ⟨later, (byteSize_cons_eq_succ_iff.mp size).2⟩, rfl⟩
  | case4 n c t wide =>
      simp only [reduceCtorEq, false_iff, not_and]
      intro start size
      rcases List.prefix_cons_iff.mp start with rfl | ⟨s, rfl, -⟩
      · simp at size
      · exact wide (byteSize_cons_eq_succ_iff.mp size).1

theorem from?_eq_some_iff : from? n t = some s ↔ ∃ u, t = u ++ s ∧ byteSize u = n := by
  fun_induction from? n t with
  | case1 t =>
      simp only [Option.some.injEq, byteSize_eq_zero_iff]
      constructor
      · rintro rfl
        exact ⟨[], rfl, rfl⟩
      · rintro ⟨u, rfl, rfl⟩
        rfl
  | case2 n =>
      simp only [reduceCtorEq, List.nil_eq, List.append_eq_nil_iff, false_iff, not_exists, not_and]
      rintro u ⟨rfl, -⟩
      simp
  | case3 n c t fits ih =>
      rw [ih]
      constructor
      · rintro ⟨u, rfl, size⟩
        exact ⟨c :: u, rfl, byteSize_cons_eq_succ_iff.mpr ⟨fits, size⟩⟩
      · rintro ⟨u, whole, size⟩
        cases u with
        | nil => simp at size
        | cons d u =>
            obtain ⟨rfl, rfl⟩ := List.cons.inj whole
            exact ⟨u, rfl, (byteSize_cons_eq_succ_iff.mp size).2⟩
  | case4 n c t wide =>
      simp only [reduceCtorEq, false_iff, not_exists, not_and]
      intro u whole size
      cases u with
      | nil => simp at size
      | cons d u =>
          obtain ⟨rfl, rfl⟩ := List.cons.inj whole
          exact wide (byteSize_cons_eq_succ_iff.mp size).1

theorem slice?_eq_some_iff : slice? t first last = some s ↔
    ∃ u v, t = u ++ s ++ v ∧ byteSize u = first ∧ byteSize (u ++ s) = last := by
  rw [slice?]
  constructor
  · intro h
    split at h
    · obtain ⟨whole, upTo, behind⟩ := Option.bind_eq_some_iff.mp h
      obtain ⟨⟨v, rfl⟩, size⟩ := upTo?_eq_some_iff.mp upTo
      obtain ⟨u, rfl, start⟩ := from?_eq_some_iff.mp behind
      exact ⟨u, v, rfl, start, size⟩
    · cases h
  · rintro ⟨u, v, rfl, rfl, rfl⟩
    rw [if_pos (by simp)]
    refine Option.bind_eq_some_iff.mpr ⟨u ++ s, ?_, from?_eq_some_iff.mpr ⟨u, rfl, rfl⟩⟩
    exact upTo?_eq_some_iff.mpr ⟨List.prefix_append _ _, rfl⟩

theorem eq_of_prefix {u w : Text} (start : u <+: w) (size : byteSize w ≤ byteSize u) : u = w := by
  obtain ⟨s, rfl⟩ := start
  rw [byteSize_append] at size
  rw [byteSize_eq_zero_iff.mp (show byteSize s = 0 by omega), List.append_nil]

/-- Of two beginnings of one text the one with fewer bytes begins the other. -/
theorem prefix_of_byteSize_le {u w : Text} (hu : u <+: t) (hw : w <+: t)
    (order : byteSize u ≤ byteSize w) : u <+: w := by
  rcases List.prefix_or_prefix_of_prefix hu hw with start | start
  · exact start
  · exact eq_of_prefix start order ▸ List.prefix_rfl

theorem eq_of_byteSize_eq {u w : Text} (hu : u <+: t) (hw : w <+: t)
    (size : byteSize u = byteSize w) : u = w :=
  eq_of_prefix (prefix_of_byteSize_le hu hw (Nat.le_of_eq size)) (Nat.le_of_eq size.symm)

/-- There is a slice just between two bytes in order that are both at borders. -/
theorem isSome_slice?_iff : (slice? t first last).isSome ↔
    first ≤ last ∧ Border t first ∧ Border t last := by
  rw [Option.isSome_iff_exists]
  constructor
  · rintro ⟨s, found⟩
    obtain ⟨u, v, rfl, rfl, rfl⟩ := slice?_eq_some_iff.mp found
    refine ⟨by simp, ⟨u, ?_, rfl⟩, u ++ s, List.prefix_append _ _, rfl⟩
    rw [List.append_assoc]
    exact List.prefix_append _ _
  · rintro ⟨order, ⟨u, start, rfl⟩, w, stop, rfl⟩
    obtain ⟨s, rfl⟩ := prefix_of_byteSize_le start stop order
    obtain ⟨v, rfl⟩ := stop
    exact ⟨s, slice?_eq_some_iff.mpr ⟨u, v, rfl, rfl, rfl⟩⟩

/-- A slice may start behind a character of two bytes, but not within it. -/
example : slice? ['é', 'A'] 2 3 = some ['A'] ∧ slice? ['é', 'A'] 1 3 = none := by decide

end ChoiceLogic.Text
