import ChoiceLogic.Assignment
import ChoiceLogic.Operator
import ChoiceLogic.Text.Cut

/-! # Words between spaces

Everything that a text is cut at is a word with a space on each side, and a word has no blank in it.
Such a separator can overlap what stands around it by no more than one of its spaces, so where two
texts are joined at a blank it is found in one of them, next to the blank at most.
-/

namespace ChoiceLogic.Text

/-- Not empty, and without blanks. -/
structure IsWord (w : Text) : Prop where
  nonempty : w ≠ []
  noBlank : ∀ c ∈ w, isBlank c = false

theorem isWord_of_all {w : Text} (nonempty : w ≠ []) (noBlank : w.all (!isBlank ·)) : IsWord w :=
  ⟨nonempty, by simpa using noBlank⟩

def spaced (w : Text) : Text :=
  ' ' :: (w ++ [' '])

/-- The word stands at the end, behind a space. -/
def EndsIn (w : Text) (t : Text) : Prop :=
  ' ' :: w <:+ t

instance (w t : Text) : Decidable (EndsIn w t) :=
  inferInstanceAs (Decidable (_ <:+ _))

theorem spaced_length (w : Text) : (spaced w).length = w.length + 2 := by
  simp [spaced]

theorem isBlank_space : isBlank ' ' = true := by decide

theorem occurs_iff {part t : Text} : occurs part t ↔ part <:+: t := by
  induction t with
  | nil => simp [occurs]
  | cons c t ih =>
      rw [occurs, Bool.or_eq_true, ih, List.isPrefixOf_iff_prefix, List.infix_cons_iff]

theorem occurs_eq_false_iff {part t : Text} : occurs part t = false ↔ ¬ part <:+: t := by
  rw [← occurs_iff, Bool.not_eq_true]

theorem IsWord.not_mem_of_isBlank {w : Text} (hw : IsWord w) {c : Char} (hc : isBlank c) : c ∉ w := by
  intro mem
  have := hw.noBlank c mem
  simp [hc] at this

theorem prefix_append_cases {s u x : Text} (h : s <+: u ++ x) :
    s <+: u ∨ ∃ c t, s = u ++ c :: t ∧ c :: t <+: x := by
  obtain ⟨z, hz⟩ := h
  rcases List.append_eq_append_iff.mp hz with ⟨a, rfl, -⟩ | ⟨a, rfl, rfl⟩
  · exact .inl (List.prefix_append _ _)
  · cases a with
    | nil => simp
    | cons c t => exact .inr ⟨c, t, rfl, List.prefix_append _ _⟩

/-- A separator that lies across a boundary has a character of its word behind it, or no more than
its second space. -/
theorem spaced_eq_append_cons {w u t : Text} {c : Char} (hu : u ≠ [])
    (h : spaced w = u ++ c :: t) : c ∈ w ∨ c = ' ' ∧ u = ' ' :: w := by
  obtain ⟨d, u, rfl⟩ := List.exists_cons_of_ne_nil hu
  simp only [spaced, List.cons_append, List.cons.injEq] at h
  obtain ⟨rfl, h⟩ := h
  rcases List.append_eq_append_iff.mp h with ⟨a, rfl, ha⟩ | ⟨a, rfl, ha⟩
  · cases a with
    | nil =>
        simp only [List.append_nil, List.nil_append, List.cons.injEq] at ha ⊢
        exact .inr ⟨ha.1.symm, trivial⟩
    | cons x a => simp at ha
  · cases a with
    | nil =>
        simp only [List.append_nil, List.nil_append, List.cons.injEq] at ha ⊢
        exact .inr ⟨ha.1, trivial⟩
    | cons x a =>
        simp only [List.cons_append, List.cons.injEq] at ha
        simp [ha.1]

section Boundary

variable {w u v : Text} {c : Char}

theorem spaced_prefix_append_cons (hu : u ≠ []) (hc : c ∉ w) (apart : c = ' ' → ¬ EndsIn w u) :
    spaced w <+: u ++ c :: v ↔ spaced w <+: u := by
  constructor
  · intro h
    rcases prefix_append_cases h with h | ⟨d, t, across, ⟨z, hz⟩⟩
    · exact h
    · obtain ⟨rfl, -⟩ := List.cons.inj hz
      rcases spaced_eq_append_cons hu across with inside | ⟨rfl, rfl⟩
      · exact absurd inside hc
      · exact absurd (List.suffix_refl _) (apart rfl)
  · intro h
    exact h.trans (List.prefix_append _ _)

theorem spaced_infix_append_cons (hc : c ∉ w) (h : spaced w <:+: u ++ c :: v) :
    spaced w <:+: u ∨ c = ' ' ∧ EndsIn w u ∨ spaced w <:+: c :: v := by
  induction u with
  | nil => exact .inr (.inr h)
  | cons d u ih =>
      rcases List.infix_cons_iff.mp h with h | h
      · by_cases apart : c = ' ' ∧ EndsIn w (d :: u)
        · exact .inr (.inl apart)
        · have within := (spaced_prefix_append_cons (List.cons_ne_nil d u) hc
            fun hc => fun ends => apart ⟨hc, ends⟩).mp h
          exact .inl within.isInfix
      · rcases ih h with h | ⟨hc, h⟩ | h
        · exact .inl (List.infix_cons h)
        · exact .inr (.inl ⟨hc, h.trans (List.suffix_cons d u)⟩)
        · exact .inr (.inr h)

theorem spaced_infix_append_cons_of_notMem (hc : c ∉ spaced w) (h : spaced w <:+: u ++ c :: v) :
    spaced w <:+: u ∨ spaced w <:+: v := by
  simp only [spaced, List.mem_cons, List.mem_append, List.not_mem_nil, or_false, not_or] at hc
  rcases spaced_infix_append_cons hc.2.1 h with h | ⟨rfl, -⟩ | h
  · exact .inl h
  · exact absurd rfl hc.1
  · rcases List.infix_cons_iff.mp h with h | h
    · exact absurd (List.cons_prefix_cons.mp h).1.symm hc.1
    · exact .inr h

theorem EndsIn.spaced_infix (h : EndsIn w u) : spaced w <:+: u ++ [' '] := by
  obtain ⟨a, rfl⟩ := h
  exact ⟨a, [], by simp [spaced]⟩

theorem spaced_infix_append_blank (hw : IsWord w) (hc : isBlank c) (h : spaced w <:+: u ++ c :: v) :
    spaced w <:+: u ++ [' '] ∨ spaced w <:+: ' ' :: v := by
  rcases spaced_infix_append_cons (hw.not_mem_of_isBlank hc) h with h | ⟨-, h⟩ | h
  · exact .inl (h.trans (List.prefix_append _ _).isInfix)
  · exact .inl h.spaced_infix
  · rcases List.infix_cons_iff.mp h with h | h
    · obtain ⟨rfl, -⟩ := List.cons_prefix_cons.mp h
      exact .inr h.isInfix
    · exact .inr (List.infix_cons h)

/-- Between two texts with blanks, too, a separator belongs to one of them. -/
theorem spaced_infix_append_blanks {g : Text} (hw : IsWord w) (hg : ∀ c ∈ g, isBlank c)
    (nonempty : g ≠ []) (h : spaced w <:+: u ++ g ++ v) :
    spaced w <:+: u ++ [' '] ∨ spaced w <:+: ' ' :: v := by
  induction g generalizing u with
  | nil => exact absurd rfl nonempty
  | cons b g ih =>
      rw [List.append_assoc, List.cons_append] at h
      rcases spaced_infix_append_blank hw (hg b (.head g)) h with h | h
      · exact .inl h
      · by_cases last : g = []
        · subst last
          exact .inr h
        · rcases ih (u := [' ']) (fun c hc => hg c (.tail b hc)) last h with h | h
          · have short := h.length_le
            simp [spaced_length] at short
            exact absurd short hw.nonempty
          · exact .inr h

/-- What a text ends in is not changed by what stands before its last blank. -/
theorem EndsIn.of_append_blank (hw : IsWord w) (hc : isBlank c) (h : EndsIn w (u ++ c :: v)) :
    EndsIn w (' ' :: v) := by
  obtain ⟨a, ha⟩ := h
  rcases List.append_eq_append_iff.mp ha with ⟨b, rfl, hb⟩ | ⟨b, rfl, hb⟩
  · cases b with
    | nil => 
        simp only [List.nil_append, List.cons.injEq] at hb
        exact ⟨[], by simp [hb.2]⟩
    | cons x b =>
        simp only [List.cons_append, List.cons.injEq] at hb
        exact absurd (hb.2 ▸ by simp) (hw.not_mem_of_isBlank hc)
  · cases b with
    | nil =>
        simp only [List.nil_append, List.cons.injEq] at hb
        exact ⟨[], by simp [hb.2]⟩
    | cons x b =>
        simp only [List.cons_append, List.cons.injEq] at hb
        exact ⟨' ' :: b, by simp [hb.2]⟩

theorem EndsIn.of_append (hw : IsWord w) (blank : ' ' ∈ v) (h : EndsIn w (u ++ v)) : EndsIn w v := by
  obtain ⟨x, y, rfl⟩ := List.append_of_mem blank
  rw [← List.append_assoc] at h
  exact (h.of_append_blank hw isBlank_space).trans (List.suffix_append x _)

theorem not_spaced_infix_of_noBlank (hu : ∀ c ∈ u, isBlank c = false) : ¬ spaced w <:+: u := by
  intro inside
  have := hu ' ' (inside.subset (.head _))
  simp [isBlank_space] at this

theorem not_endsIn_of_noBlank (hu : ∀ c ∈ u, isBlank c = false) : ¬ EndsIn w u := by
  intro ends
  have := hu ' ' (ends.subset (.head _))
  simp [isBlank_space] at this

end Boundary

/-! ## Texts that a word is absent from -/

section Absent

variable {w t u g : Text}

/-- The separator does not occur, not even with the help of spaces around the text. -/
def Absent (w t : Text) : Prop :=
  ¬ spaced w <:+: spaced t

theorem Absent.not_inside (h : Absent w t) : ¬ spaced w <:+: t := by
  intro inside
  exact h (inside.trans ⟨[' '], [' '], by simp [spaced]⟩)

theorem Absent.not_endsIn (h : Absent w t) : ¬ EndsIn w t := by
  intro ends
  exact h (ends.spaced_infix.trans ⟨[' '], [], by simp [spaced]⟩)

theorem Absent.append (hw : IsWord w) (ht : Absent w t) (hg : ∀ c ∈ g, isBlank c) (nonempty : g ≠ [])
    (hu : Absent w u) : Absent w (t ++ g ++ u) := by
  intro inside
  have split : spaced (t ++ g ++ u) = (' ' :: t) ++ g ++ (u ++ [' ']) := by simp [spaced]
  rw [split] at inside
  rcases spaced_infix_append_blanks hw hg nonempty inside with inside | inside
  · exact ht (by simpa [spaced] using inside)
  · exact hu (by simpa [spaced] using inside)

theorem absent_nil (hw : IsWord w) : Absent w [] := by
  intro inside
  have short := inside.length_le
  simp [spaced_length] at short
  exact hw.nonempty short

/-- Blanks around a text bring no separator into it. -/
theorem Absent.padded {h : Text} (hw : IsWord w) (ht : Absent w t) (hg : ∀ c ∈ g, isBlank c)
    (hh : ∀ c ∈ h, isBlank c) : Absent w (g ++ t ++ h) := by
  have before : Absent w (g ++ t) := by
    by_cases none : g = []
    · simpa [none] using ht
    · simpa using Absent.append hw (absent_nil hw) hg none ht
  by_cases none : h = []
  · simpa [none] using before
  · simpa using Absent.append hw before hh none (absent_nil hw)

end Absent

end ChoiceLogic.Text

namespace ChoiceLogic

theorem Assignment.sign_eq : sign = Text.spaced ['='] := rfl

theorem Assignment.isWord_sign : Text.IsWord ['='] :=
  Text.isWord_of_all (by simp) (by decide)

theorem Operator.forall_iff {p : Operator → Prop} : (∀ op, p op) ↔ p .and ∧ p .or := by
  constructor
  · exact fun h => ⟨h .and, h .or⟩
  · rintro ⟨hand, hor⟩ (_ | _)
    · exact hand
    · exact hor

instance (p : Operator → Prop) [DecidablePred p] : Decidable (∀ op, p op) :=
  decidable_of_iff _ Operator.forall_iff.symm

theorem Operator.separator_eq_spaced (op : Operator) : op.separator = Text.spaced op.name :=
  op.separator_eq

theorem Operator.isWord_name (op : Operator) : Text.IsWord op.name := by
  cases op with
  | and => exact Text.isWord_of_all (by simp [name]) (by decide)
  | or => exact Text.isWord_of_all (by simp [name]) (by decide)

end ChoiceLogic
