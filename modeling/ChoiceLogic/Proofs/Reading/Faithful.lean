import ChoiceLogic.Proofs.Reading.Legible
import ChoiceLogic.Proofs.Reading.Reads

/-! # Reading without loss

The text of an expression is never wider than the text that was read as it, because reading only drops:
blanks around a piece, a piece that occurs again, an operand that repeats another. Where the widths are
equal nothing was dropped, and every leaf is an assignment whose text stands for itself.
-/

namespace ChoiceLogic

open Selection

theorem Assignment.parts_of_ofParts {family value : Text} {a : Assignment}
    (made : ofParts family value = .ok a) :
    a.family = Text.trim family ∧ a.value = Text.trim value := by
  unfold ofParts at made
  split at made
  · cases made
  · split at made
    · cases made
    · cases made
      exact ⟨rfl, rfl⟩

namespace Reading

open Markup Text Expression

variable {op : Operator} {t inner : Text} {pieces parts : List Text} {e : Expression}

/-! ## Nothing is added -/

theorem text_of_segments {first : Text} {rest : List Text}
    (found : segments (Token.scan t) = (first, rest.map (op, ·))) :
    t = op.separator.intercalate (first :: rest) := by
  have whole := text_of_segmentsAt 0 (Token.scan t)
  rw [Token.flatMap_text_scan, show segmentsAt 0 (Token.scan t) = _ from found, List.flatMap_map] at whole
  rw [whole, intercalate_cons_eq_flatMap]

theorem text_of_fragments (op : Operator) (t : Text) :
    op.separator.intercalate (Plan.fragments op t) = stripped t := by
  rw [Plan.fragments_eq, op.separator_eq_spaced]
  exact intercalate_cut op.name (stripped t)

theorem bare_of_mem_fragments {p : Text} (h : p ∈ Plan.fragments op t) : Bare p :=
  (bare_stripped t).of_inside (text_of_fragments op t ▸ infix_intercalate op.separator h)

theorem not_separator_inside_fragment {p : Text} (h : p ∈ Plan.fragments op t) :
    ¬ op.separator <:+: p := by
  rw [Plan.fragments_eq, op.separator_eq_spaced] at h
  exact op.separator_eq_spaced ▸ not_inside_of_mem_cut h

theorem sum_width_fragments_le (op : Operator) (t : Text) :
    ((Plan.fragments op t).map width).sum ≤ width t := by
  have sum := sum_width_le op (Plan.fragments op t)
  rwa [text_of_fragments, width, stripped_stripped] at sum

theorem Cuts.nonempty (cuts : Cuts t op pieces parts) : pieces ≠ [] := by
  cases cuts with
  | flat => exact cut_ne_nil _ _
  | layered => exact List.cons_ne_nil _ _

theorem Cuts.extent_eq (cuts : Cuts t op pieces parts) : (pieces.map (extent op)).sum = extent op t := by
  rw [← extent_intercalate op cuts.nonempty]
  cases cuts with
  | flat =>
      rw [text_of_fragments, extent, width, stripped_stripped]
      rfl
  | layered _ found => rw [← text_of_segments found]

theorem Cuts.extent_le (cuts : Cuts t op pieces parts) : (parts.map (extent op)).sum ≤ extent op t := by
  rw [← cuts.extent_eq]
  cases cuts with
  | flat => exact ((eraseDupsBy_sublist _ _).map (extent op)).sum_le_sum fun _ _ => Nat.zero_le _
  | layered =>
      rw [List.map_map]
      exact List.sum_le_sum fun p _ => Nat.add_le_add_right (width_trim_le p) _

/-- No piece was dropped or trimmed if the total did not fall. -/
theorem Cuts.parts_eq (cuts : Cuts t op pieces parts) (same : extent op t ≤ (parts.map (extent op)).sum) :
    parts = pieces := by
  rw [← cuts.extent_eq] at same
  cases cuts with
  | flat => exact eq_of_sum_le_of_sublist (eraseDupsBy_sublist _ _) (fun p _ => extent_pos op p) same
  | @layered first rest =>
      rw [List.map_map] at same
      have each := eq_of_sum_le (fun p _ => Nat.add_le_add_right (width_trim_le p) _) same
      refine (List.map_congr_left fun p hp => ?_).trans (List.map_id _)
      exact trim_eq_of_width_le (Nat.le_of_eq (Nat.add_right_cancel (each p hp)).symm)

theorem Reads.canonical (h : Reads t e) : e.Canonical := by
  induction h with
  | blank => exact .blank
  | single => exact .assignment _
  | group _ _ _ _ ih => exact ih
  | split _ _ _ _ ih =>
      exact Canonical.combine (List.forall_mem_map.mpr ih)

theorem text_of_sign {family value : Text} (parts : cut Assignment.sign t = [family, value]) :
    t = family ++ Assignment.sign ++ value := by
  have whole := intercalate_cut ['='] t
  rw [← Assignment.sign_eq, parts] at whole
  simpa using whole.symm

theorem Cuts.parts_ne_nil (cuts : Cuts t op pieces parts) : parts ≠ [] := by
  cases cuts with
  | flat =>
      obtain ⟨p, ps, some⟩ := List.exists_cons_of_ne_nil (cut_ne_nil op.separator (stripped t))
      rw [Plan.fragments_eq, some, List.eraseDups, eraseDupsBy_cons]
      exact List.cons_ne_nil _ _
  | layered => simp

section Split

variable {meaning : Text → Expression}

/-- What the operands of a split take up, from the meaning of the whole to its text. -/
theorem Cuts.extent_combine_le (cuts : Cuts t op pieces parts)
    (canonical : ∀ p ∈ parts, (meaning p).Canonical)
    (each : ∀ p ∈ parts, width (meaning p).render ≤ width p) :
    extent op (combine op (parts.map meaning)).render ≤
        ((survivors op (parts.map meaning)).map fun e => extent op e.render).sum ∧
      ((survivors op (parts.map meaning)).map fun e => extent op e.render).sum ≤
        (parts.map fun p => extent op (meaning p).render).sum ∧
      (parts.map fun p => extent op (meaning p).render).sum ≤ (parts.map (extent op)).sum := by
  have operands : ∀ e ∈ parts.map meaning, e.Canonical := List.forall_mem_map.mpr canonical
  have some : parts.map meaning ≠ [] := by simpa using cuts.parts_ne_nil
  have additive := additive_extent op
  refine ⟨Nat.le_of_eq (additive.combine (survivors_ne_nil operands some)), ?_, ?_⟩
  · have merged := additive.sum_survivors_le operands
    rwa [List.map_map] at merged
  · exact List.sum_le_sum fun p hp => Nat.add_le_add_right (each p hp) _

theorem Cuts.width_le (cuts : Cuts t op pieces parts)
    (canonical : ∀ p ∈ parts, (meaning p).Canonical)
    (each : ∀ p ∈ parts, width (meaning p).render ≤ width p) :
    width (combine op (parts.map meaning)).render ≤ width t := by
  obtain ⟨first, second, third⟩ := cuts.extent_combine_le canonical each
  have last := cuts.extent_le
  have whole : extent op (combine op (parts.map meaning)).render ≤ extent op t := by omega
  exact Nat.le_of_add_le_add_right whole

/-- Where the whole is as wide as its text, so is each part, and every leaf is still there. -/
theorem Cuts.of_width_le (cuts : Cuts t op pieces parts)
    (canonical : ∀ p ∈ parts, (meaning p).Canonical)
    (each : ∀ p ∈ parts, width (meaning p).render ≤ width p)
    (same : width t ≤ width (combine op (parts.map meaning)).render) :
    parts = pieces ∧ (∀ p ∈ parts, width p ≤ width (meaning p).render) ∧
      ∀ w, load w (combine op (parts.map meaning)) = (parts.map fun p => load w (meaning p)).sum := by
  obtain ⟨first, second, third⟩ := cuts.extent_combine_le canonical each
  have last := cuts.extent_le
  have ends : extent op t ≤ extent op (combine op (parts.map meaning)).render :=
    Nat.add_le_add_right same _
  have operands : ∀ e ∈ parts.map meaning, e.Canonical := List.forall_mem_map.mpr canonical
  refine ⟨cuts.parts_eq (by omega), ?_, ?_⟩
  · intro p hp
    have kept := eq_of_sum_le (fun p hp => Nat.add_le_add_right (each p hp) op.separator.length)
      (show (parts.map (extent op)).sum ≤ (parts.map fun p => extent op (meaning p).render).sum by omega)
    exact Nat.le_of_eq (Nat.add_right_cancel (kept p hp)).symm
  · intro w
    have perm := (additive_extent op).survivors_perm operands (fun e => extent_pos op e.render)
      (by rw [List.map_map, Function.comp_def]; omega)
    rw [load_combine w operands perm, List.map_map, Function.comp_def]

end Split

theorem width_render_single {family value : Text} {a : Assignment}
    (parts : cut Assignment.sign t = [family, value]) (made : Assignment.ofParts family value = .ok a) :
    width a.render ≤ width t ∧ (width t ≤ width a.render → a.render = t) := by
  obtain ⟨hf, hv⟩ := Assignment.parts_of_ofParts made
  have whole := text_of_sign parts
  have smaller := width_trim_le family
  have smaller' := width_trim_le value
  have sum := congrArg width whole
  rw [width_append, width_append] at sum
  unfold Assignment.render
  rw [hf, hv, width_append, width_append]
  refine ⟨by omega, fun same => ?_⟩
  rw [trim_eq_of_width_le (t := family) (by omega), trim_eq_of_width_le (t := value) (by omega), ← whole]

theorem Reads.width_le_trim (h : Reads t e) : width e.render ≤ width (trim t) := by
  induction h with
  | blank => simp [render, width, stripped]
  | single _ _ _ _ parts made => exact (width_render_single parts made).1
  | @group t inner e _ grouped _ _ ih =>
      rw [eq_of_group? grouped, width_enclosed]
      exact Nat.le_trans ih (width_trim_le inner)
  | split _ _ cuts each ih =>
      exact cuts.width_le (fun p hp => (each p hp).canonical)
        fun p hp => Nat.le_trans (ih p hp) (width_trim_le p)

theorem Reads.width_le (h : Reads t e) : width e.render ≤ width t :=
  Nat.le_trans h.width_le_trim (width_trim_le t)

/-! ## Nothing is lost -/

/-- The text is read as the expression, and nothing of it is dropped but parentheses. -/
inductive Faithful : Text → Expression → Prop where
  | leaf {a : Assignment} (legible : a.Legible) : Faithful a.render (.assignment a)
  | group {t inner : Text} {e : Expression} (grouped : group? (Token.scan t) = some inner)
      (closed : Closed t) (read : Faithful inner e) : Faithful t e
  | flat {t : Text} {op : Operator} {meaning : Text → Expression} (sign : Assignment.sign <:+: t)
      (found : .mark (.operator op) ∈ Token.scan t)
      (only : ∀ o, o ≠ op → .mark (.operator o) ∉ Token.scan t)
      (each : ∀ p ∈ Plan.fragments op t, Faithful p (meaning p))
      (kept : ∀ w, load w (combine op ((Plan.fragments op t).map meaning)) =
        ((Plan.fragments op t).map fun p => load w (meaning p)).sum) :
      Faithful t (combine op ((Plan.fragments op t).map meaning))
  | layered {t first : Text} {rest : List Text} {op : Operator} {meaning : Text → Expression}
      (sign : Assignment.sign <:+: t) (both : ∀ o, .mark (.operator o) ∈ Token.scan t)
      (found : segments (Token.scan t) = (first, rest.map (op, ·))) (more : rest ≠ [])
      (each : ∀ p ∈ first :: rest, Faithful p (meaning p))
      (kept : ∀ w, load w (combine op ((first :: rest).map meaning)) =
        ((first :: rest).map fun p => load w (meaning p)).sum) :
      Faithful t (combine op ((first :: rest).map meaning))

theorem legible_of_single {family value : Text} {a : Assignment} (balanced : Balanced t)
    (noOperator : ∀ op, .mark (.operator op) ∉ Token.scan t) (ungrouped : group? (Token.scan t) = none)
    (parts : cut Assignment.sign t = [family, value]) (made : Assignment.ofParts family value = .ok a)
    (same : a.render = t) : a.Legible where
  balanced := same ▸ balanced
  ungrouped := same ▸ ungrouped
  noOperator := by
    intro op
    rw [same, occurs_eq_false_iff]
    intro occurs
    obtain ⟨o, found⟩ := Token.exists_operator_mem_scan occurs
    exact noOperator o found
  parts := by
    have whole := text_of_sign parts
    obtain ⟨hf, hv⟩ := Assignment.parts_of_ofParts made
    have sum := congrArg width (same.trans whole)
    have smaller := width_trim_le family
    have smaller' := width_trim_le value
    unfold Assignment.render at sum
    rw [hf, hv] at sum
    simp only [width_append] at sum
    rw [same, parts, hf, hv, trim_eq_of_width_le (t := family) (by omega),
      trim_eq_of_width_le (t := value) (by omega)]

theorem Cuts.faithful {meaning : Text → Expression} (cuts : Cuts t op pieces parts)
    (sign : Assignment.sign <:+: t) (same : parts = pieces)
    (each : ∀ p ∈ parts, ¬ Blank p → Faithful p (meaning p))
    (kept : ∀ w, load w (combine op (parts.map meaning)) = (parts.map fun p => load w (meaning p)).sum) :
    Faithful t (combine op (parts.map meaning)) := by
  cases cuts with
  | flat found only nonblank =>
      rw [same] at each kept ⊢
      exact .flat sign found only (fun p hp => each p hp (nonblank p hp)) kept
  | @layered first rest both found more nonblank =>
      rw [same] at each kept ⊢
      refine .layered sign both found more (fun p hp => each p hp fun blank => ?_) kept
      exact nonblank p hp (trim_blank blank)

theorem Reads.faithful (h : Reads t e) (filled : ¬ Blank t) (same : width t ≤ width e.render) :
    Faithful t e := by
  induction h with
  | blank blank => exact absurd blank filled
  | @single t family value a sign balanced noOperator ungrouped parts made =>
      have trimmed := trim_eq_of_width_le (t := t)
        (Nat.le_trans same (width_render_single parts made).1)
      rw [trimmed] at balanced noOperator ungrouped parts
      have whole := (width_render_single parts made).2 same
      exact whole ▸ .leaf (legible_of_single balanced noOperator ungrouped parts made whole)
  | @group t inner e sign grouped closed read ih =>
      have inside : width e.render ≤ width (trim t) :=
        (Reads.group sign grouped closed read).width_le_trim
      have filled := not_blank_of_group? sign grouped
      have trimmed := trim_eq_of_width_le (Nat.le_trans same inside)
      rw [trimmed] at grouped closed
      have whole := eq_of_group? grouped
      rw [whole, width_enclosed] at same
      exact .group grouped closed (ih filled same)
  | @split t op pieces parts meaning sign balanced cuts each ih =>
      have smaller : ∀ p ∈ parts, width (meaning p).render ≤ width p := fun p hp => (each p hp).width_le
      have canonical : ∀ p ∈ parts, (meaning p).Canonical := fun p hp => (each p hp).canonical
      have trimmed := trim_eq_of_width_le (Nat.le_trans same (cuts.width_le canonical smaller))
      rw [trimmed] at cuts
      obtain ⟨whole, wide, kept⟩ := cuts.of_width_le canonical smaller same
      exact cuts.faithful sign whole (fun p hp nonblank => ih p hp nonblank (wide p hp)) kept

theorem Faithful.contains_sign (h : Faithful t e) : Assignment.sign <:+: t := by
  induction h with
  | leaf => exact Assignment.sign_infix_render _
  | group grouped _ _ ih => exact ih.trans ⟨['('], [')'], (eq_of_group? grouped).symm⟩
  | flat sign => exact sign
  | layered sign => exact sign

theorem Faithful.canonical (h : Faithful t e) : e.Canonical := by
  induction h with
  | leaf => exact .assignment _
  | group _ _ _ ih => exact ih
  | flat _ _ _ _ _ ih =>
      exact Canonical.combine (List.forall_mem_map.mpr ih)
  | layered _ _ _ _ _ _ ih =>
      exact Canonical.combine (List.forall_mem_map.mpr ih)

/-- A property of all leaves holds of what is combined from them. -/
theorem over_combine_map {p : Assignment → Prop} {meaning : Text → Expression} (some : pieces ≠ [])
    (canonical : ∀ t ∈ pieces, (meaning t).Canonical) (each : ∀ t ∈ pieces, Over p (meaning t)) :
    Over p (combine op (pieces.map meaning)) := by
  exact Over.combine (List.forall_mem_map.mpr canonical) (List.forall_mem_map.mpr each)
    (by simpa using some)

theorem Faithful.over_legible (h : Faithful t e) : Over Assignment.Legible e := by
  induction h with
  | leaf legible => exact .assignment legible
  | group _ _ _ ih => exact ih
  | flat _ _ _ each _ ih =>
      exact over_combine_map (cut_ne_nil _ _) (fun p hp => (each p hp).canonical) ih
  | layered _ _ _ _ each _ ih =>
      exact over_combine_map (List.cons_ne_nil _ _) (fun p hp => (each p hp).canonical) ih

/-- Parentheses in a leaf come from the text. -/
theorem Faithful.over_bare (h : Faithful t e) (bare : Bare t) : Over (fun a => Bare a.render) e := by
  induction h with
  | leaf => exact .assignment bare
  | group grouped =>
      rw [eq_of_group? grouped] at bare
      exact absurd rfl (bare '(' (.head _)).1
  | @flat t op meaning _ _ _ each _ ih =>
      exact over_combine_map (cut_ne_nil _ _) (fun p hp => (each p hp).canonical)
        fun p hp => ih p hp (bare_of_mem_fragments hp)
  | @layered t first rest op meaning _ _ found _ each _ ih =>
      refine over_combine_map (List.cons_ne_nil _ _) (fun p hp => (each p hp).canonical)
        fun p hp => ih p hp (bare.of_inside ?_)
      rw [text_of_segments found]
      exact infix_intercalate op.separator hp

/-- Every leaf takes some width. -/
theorem Faithful.leaves_le_width (h : Faithful t e) : load (fun _ => 1) e ≤ width t := by
  induction h with
  | @leaf a =>
      have sign : width Assignment.sign = 3 := rfl
      rw [load_assignment, Assignment.render, width_append, width_append, sign]
      omega
  | group grouped _ _ ih =>
      rw [eq_of_group? grouped, width_enclosed]
      exact ih
  | @flat t op meaning _ _ _ _ kept ih =>
      rw [kept]
      exact Nat.le_trans (List.sum_le_sum ih) (sum_width_fragments_le op t)
  | @layered t first rest op meaning _ _ found _ _ kept ih =>
      have sum := sum_width_le op (first :: rest)
      rw [← text_of_segments found] at sum
      rw [kept]
      exact Nat.le_trans (List.sum_le_sum ih) sum

end Reading

end ChoiceLogic
