import ChoiceLogic.Proofs.Reading.Burden

/-! # Reading the text of an expression

A text is made from an expression and read again. If nothing is lost then the burden does not grow,
and it stays the same only if the text is cut where it was joined, that is if the expression is
legible.
-/

namespace ChoiceLogic.Reading

open Markup Selection Text Expression

variable {op : Operator} {c t : Text} {x : Expression} {rate : Nat} {meaning : Text → Expression}

/-! ## Flat texts -/

theorem rate_le_totalBurden {a : Assignment} (mem : a ∈ x.assignments) (h : ¬ Bare a.render) :
    rate ≤ totalBurden rate x := by
  have some : 0 < parentheses a.render := Nat.pos_of_ne_zero (mt parentheses_eq_zero_iff.mp h)
  have one := List.le_sum_of_mem
    (List.mem_map_of_mem (f := fun a : Assignment => burden rate a.render) mem)
  have least := Nat.mul_le_mul_left rate some
  have most := mul_parentheses_le_burden rate a.render
  change rate ≤ List.sum _
  omega

/-- What is read of a text without parentheses has a burden of words only. -/
theorem Faithful.totalBurden_le_width {e : Expression} (h : Faithful t e) (bare : Bare t) :
    totalBurden rate e ≤ width t := by
  refine Nat.le_trans (List.sum_le_sum fun a ha => ?_) h.leaves_le_width
  have none := parentheses_eq_zero_iff.mpr ((h.over_bare bare).mem_assignments a ha)
  unfold burden
  rw [none]
  split <;> omega

theorem stripped_render_eq_joined {p : Assignment → Prop} (sound : Over p x) (canonical : x.Canonical)
    {a : Assignment} {items : List (Operator × Assignment)} (row : strand op x = (op, a) :: items)
    (bare : ∀ a ∈ x.assignments, Bare a.render) :
    stripped x.render = joined Assignment.render a items := by
  have text := rowText_strand sound canonical op
  rw [row, rowText, List.flatMap_cons, List.append_assoc] at text
  have same := List.append_cancel_left text
  have leaves := map_snd_strand sound op
  rw [row, List.map_cons] at leaves
  rw [← leaves] at bare
  rw [← same, joined, stripped_of_bare (bare a (.head _))]
  refine congrArg _ (List.flatMap_congr fun s hs => ?_)
  rw [stripped_of_bare (bare s.2 (.tail a (List.mem_map_of_mem hs)))]

/-- A text with one operator is cut within the row of leaves. What is read of the pieces has no more
burden than the leaves, and less unless each cut is at its place and no leaf has parentheses. -/
theorem flat_le (sound : Over Assignment.Legible x) (canonical : x.Canonical) (hc : Carry c)
    (only : ∀ o, o ≠ op → .mark (.operator o) ∉ Token.scan t) (inside : x.render <:+: t)
    (carried : stripped t = c ++ stripped x.render) (wide : width t < rate)
    (each : ∀ p ∈ Plan.fragments op t, Faithful p (meaning p)) :
    ((Plan.fragments op t).map fun p => totalBurden rate (meaning p)).sum ≤ totalBurden rate x ∧
      (totalBurden rate x ≤ ((Plan.fragments op t).map fun p => totalBurden rate (meaning p)).sum →
        (∀ a ∈ x.assignments, Bare a.render) ∧
        ((∃ a, x = .assignment a) ∨ ∃ leaves : List Assignment,
          x = .operation op (leaves.map .assignment) ∧
            ∀ a ∈ leaves.dropLast, ¬ EndsIn op.name a.render)) := by
  by_cases bare : ∀ a ∈ x.assignments, Bare a.render
  · obtain ⟨a, items, strand_eq⟩ := exists_strand sound canonical
    have row := strand_eq op
    have leaves := map_snd_strand sound op
    rw [row, List.map_cons] at leaves
    have plain : ∀ d ∈ a :: items.map (·.2), Plain d.render := fun d hd =>
      (sound.mem_assignments d (leaves ▸ hd)).plain
    have hidden := isChain_strand sound canonical only inside op
    rw [row] at hidden
    have text : Plan.fragments op t = cut op.separator (c ++ joined Assignment.render a items) := by
      rw [Plan.fragments_eq, carried, stripped_render_eq_joined sound canonical row bare]
    rw [text] at each ⊢
    have recut := recut_cut hc plain hidden fun p hp => (each p hp).contains_sign
    have pos : 0 < rate := Nat.zero_lt_of_lt wide
    obtain ⟨le, same⟩ := recut.sum_le (f := fun p => totalBurden rate (meaning p))
      (g := fun a => burden rate a.render) hc fun d hd =>
        { whole := fun c hc mem => (each _ mem).totalBurden_le hc (plain d hd) pos
          short := fun c kept hc whole mem => (each _ mem).totalBurden_lt hc (plain d hd) whole pos }
    rw [show a :: items.map (·.2) = x.assignments from leaves] at le same
    refine ⟨le, fun all => ⟨bare, ?_⟩⟩
    obtain ⟨operators, aparts, -, -⟩ := same all
    rcases leaves_of_strand sound canonical op (by rw [row]; exact operators) with leaf | ⟨ls, rfl⟩
    · exact .inl leaf
    · rw [assignments_leaves] at aparts
      exact .inr ⟨ls, rfl, aparts⟩
  · obtain ⟨a, mem, parens⟩ : ∃ a ∈ x.assignments, ¬ Bare a.render := by simpa using bare
    have most : rate ≤ totalBurden rate x := rate_le_totalBurden mem parens
    have words : ((Plan.fragments op t).map fun p => totalBurden rate (meaning p)).sum ≤ width t := by
      refine Nat.le_trans (List.sum_le_sum fun p hp => ?_) (sum_width_fragments_le op t)
      exact (each p hp).totalBurden_le_width (bare_of_mem_fragments hp)
    exact ⟨by omega, fun all => by omega⟩

/-! ## Operands -/

theorem operand_of_over (sound : Over Assignment.Legible x) : Operand x.operandText := by
  cases sound with
  | assignment legible =>
      rw [operandText_assignment]
      exact .plain legible.plain legible.balanced
  | operation each => exact .group (Over.operation each).balanced_render

variable {q : Operator} {es : List Expression} {e : Expression}

theorem render_eq_joined (q : Operator) (y : Expression) (rest : List Expression) :
    render (.operation q (y :: rest)) = joined operandText y (rest.map (q, ·)) := by
  rw [render_operation_cons, joined, List.flatMap_map]

/-- The text of an operation has an operator outside all parentheses. -/
theorem not_closed_render (sound : Over Assignment.Legible (.operation q es))
    (canonical : (operation q es).Canonical) : ¬ Closed (render (.operation q es)) := by
  obtain ⟨y, z, rest, rfl⟩ := canonical.node.exists_operands
  rw [render_eq_joined, List.map_cons, joined_cons, Closed]
  cases sound with
  | operation each =>
      have operand := operand_of_over (each y (.head _))
      intro closed
      rcases operand.segments_joint carry_nil (fun plain => plain.noOperator) q
        (joined operandText z (rest.map (q, ·))) with ⟨-, split⟩ | ⟨p, kept, -, split⟩
      · rw [List.nil_append] at split
        rw [split] at closed
        cases closed
      · rw [List.nil_append] at split
        rw [split] at closed
        cases closed

theorem Faithful.eq_of_leaf {a : Assignment} (h : Faithful t e) (legible : a.Legible)
    (text : t = a.render) : e = .assignment a := by
  cases h with
  | leaf other => rw [other.eq_of_render_eq legible text]
  | group grouped =>
      rw [text, legible.ungrouped] at grouped
      cases grouped
  | @flat _ op _ _ found => exact absurd (text ▸ found) (legible.mark_notMem op)
  | layered _ both => exact absurd (text ▸ both .and) (legible.mark_notMem .and)

/-- A group behind what is carried over to it is read with no more than its burden. -/
theorem Faithful.le_of_carried_group (h : Faithful t e)
    (sound : Over Assignment.Legible (.operation q es)) (canonical : (operation q es).Canonical)
    (o : Operator)
    (text : t = o.name ++ [' '] ++ operandText (.operation q es)) (wide : width t < rate) :
    totalBurden rate e ≤ totalBurden rate (.operation q es) := by
  have whole : render (.operation q es) <:+: t := by
    rw [text]
    exact (render_inside_operandText _).trans (List.suffix_append _ _).isInfix
  cases h with
  | leaf legible =>
      exact absurd ((separator_inside_render canonical).trans whole) (legible.plain.noOperator q)
  | group grouped =>
      rw [eq_of_group? grouped] at text
      cases o <;> simp [Operator.name] at text
  | flat _ found only each kept =>
      have carried : stripped t = o.name ++ [' '] ++ stripped (render (.operation q es)) := by
        rw [text, stripped_append, stripped_of_bare (carry_operator o).bare, stripped_operandText]
      rw [totalBurden, kept]
      exact (flat_le sound canonical (carry_operator o) only whole carried wide each).1
  | layered _ _ segs more =>
      have closed : Closed t := text ▸ (carry_operator o).closed_group sound.balanced_render
      rw [Closed, segs] at closed
      exact absurd (List.map_eq_nil_iff.mp closed) more

theorem bounded_of_over {first : Text} {pieces : List Text} {d : Expression}
    (sound : Over Assignment.Legible d) (canonical : d.Canonical)
    (wide : ∀ p ∈ first :: pieces, width p < rate) (each : ∀ p ∈ first :: pieces, Faithful p (meaning p))
    (itself : d.operandText ∈ first :: pieces →
      totalBurden rate (meaning d.operandText) ≤ totalBurden rate d) :
    Bounded operandText op (fun p => totalBurden rate (meaning p)) (totalBurden rate)
      (first :: pieces) d := by
  have pos : 0 < rate := Nat.zero_lt_of_lt (wide first (.head _))
  cases sound with
  | @assignment a legible =>
      constructor
      · intro c hc mem
        rw [operandText_assignment] at mem ⊢
        exact (each _ mem).totalBurden_le hc legible.plain pos
      · intro c kept hc whole mem
        rw [operandText_assignment] at whole
        exact (each _ mem).totalBurden_lt hc legible.plain whole pos
  | operation leaves =>
      constructor
      · intro c hc mem
        rcases hc with rfl | ⟨o, rfl⟩
        · exact itself mem
        · exact (each _ mem).le_of_carried_group (.operation leaves) canonical o rfl (wide _ mem)
      · intro c kept hc whole mem
        exact absurd ⟨op, kept, whole.symm⟩ (not_endsInOperator_enclosed _)

/-- A text with both operators is cut between the operands. -/
theorem layered_le {first : Text} {pieces : List Text} (sound : Over Assignment.Legible (.operation q es))
    (canonical : (operation q es).Canonical)
    (found : segments (Token.scan (render (.operation q es))) = (first, pieces.map (op, ·)))
    (wide : width (render (.operation q es)) < rate)
    (each : ∀ p ∈ first :: pieces, Faithful p (meaning p))
    (operands : ∀ d ∈ es, d.operandText ∈ first :: pieces →
      totalBurden rate (meaning d.operandText) ≤ totalBurden rate d) :
    ((first :: pieces).map fun p => totalBurden rate (meaning p)).sum ≤
        totalBurden rate (.operation q es) ∧
      (totalBurden rate (.operation q es) ≤
          ((first :: pieces).map fun p => totalBurden rate (meaning p)).sum →
        (∀ d ∈ es.dropLast, ¬ EndsInOperator d.operandText) ∧
        ∀ d ∈ es, d.operandText ∈ first :: pieces ∧
          totalBurden rate d ≤ totalBurden rate (meaning d.operandText)) := by
  obtain ⟨y, rest, rfl⟩ := List.exists_cons_of_ne_nil canonical.node.ne_nil
  have leaves : ∀ d ∈ y :: rest, Over Assignment.Legible d := by cases sound with | operation h => exact h
  have second : (rest.map (q, ·)).map (·.2) = rest := by
    rw [List.map_map]
    exact List.map_id _
  rw [render_eq_joined] at found wide
  have recut := recut_segments (c := []) carry_nil
    (by rw [second]; exact fun d hd => operand_of_over (leaves d hd)) found
    fun p hp => (each p hp).contains_sign
  have narrow : ∀ p ∈ first :: pieces, width p < rate := fun p hp =>
    Nat.lt_of_le_of_lt (text_of_segments found ▸ width_le_of_mem op hp) wide
  obtain ⟨le, same⟩ := recut.sum_le carry_nil (by
    rw [second]
    exact fun d hd => bounded_of_over (leaves d hd) (canonical.operands d hd) narrow each (operands d hd))
  rw [second] at le same
  rw [totalBurden, load_operation]
  refine ⟨le, fun all => ?_⟩
  obtain ⟨-, aparts, head, tail⟩ := same all
  refine ⟨aparts, fun d hd => ?_⟩
  rcases List.mem_cons.mp hd with rfl | hd
  · exact head
  · exact tail d hd

/-! ## Any text of an expression -/

/-- Leaves under the one operator that is found are legible when none of them, except the last, ends
in its word. -/
theorem legible_of_leaves {leaves : List Assignment}
    (sound : Over Assignment.Legible (.operation op (leaves.map .assignment)))
    (canonical : (operation op (leaves.map .assignment)).Canonical)
    (only : ∀ o, o ≠ op → .mark (.operator o) ∉ Token.scan t)
    (inside : render (.operation op (leaves.map .assignment)) <:+: t)
    (bare : ∀ a ∈ leaves, Bare a.render) (apart : ∀ a ∈ leaves.dropLast, ¬ EndsIn op.name a.render) :
    Legible (.operation op (leaves.map .assignment)) := by
  have legible : ∀ a ∈ leaves, a.Legible := by
    have each := sound.mem_assignments
    rwa [assignments_leaves] at each
  have texts : (leaves.map Expression.assignment).map operandText = leaves.map Assignment.render := by
    rw [List.map_map]
    exact List.map_congr_left fun a _ => operandText_assignment a
  rw [render_operation, texts] at inside
  have joints : ∀ a ∈ leaves.dropLast, ¬ EndsInOperator (operandText (.assignment a)) := by
    intro a ha ends
    rw [operandText_assignment] at ends
    exact apart a ha (endsIn_of_endsInOperator legible only inside a ha ends)
  apply Legible.operation canonical.node
  · exact List.forall_mem_map.mpr fun a ha => .assignment (legible a ha)
  · rw [← List.map_dropLast]
    exact List.forall_mem_map.mpr joints
  · intro _
    exact List.forall_mem_map.mpr bare

/-- Where both operators are found, not all operands are leaves. -/
theorem legible_of_both (canonical : (operation q es).Canonical) (each : ∀ e ∈ es, Legible e)
    (both : ∀ o, .mark (.operator o) ∈ Token.scan (render (.operation q es)))
    (apart : ∀ e ∈ es.dropLast, ¬ EndsInOperator e.operandText) : Legible (.operation q es) := by
  refine .operation canonical.node each apart fun leaves => ?_
  obtain ⟨o, other⟩ : ∃ o : Operator, o ≠ q := by
    cases q with
    | and => exact ⟨.or, by simp⟩
    | or => exact ⟨.and, by simp⟩
  have found := both o
  rw [render_operation, mark_mem_scan_intercalate (by simpa using canonical.node.ne_nil)
    (apart_operandTexts apart)] at found
  rcases found with ⟨p, hp, mem⟩ | ⟨-, same⟩
  · obtain ⟨e, he, rfl⟩ := List.mem_map.mp hp
    cases each e he with
    | operation => cases leaves _ he
    | assignment legible =>
        rw [operandText_assignment] at mem
        exact absurd mem (legible.mark_notMem o)
  · exact absurd (Mark.operator.inj same) other

/-- What the text of an operation, bare or in parentheses, is read as without loss has no more burden
than the operation, and has less if the operation is not legible. -/
theorem Faithful.totalBurden_le_operation (h : Faithful t e)
    (sound : Over Assignment.Legible (.operation q es)) (canonical : (operation q es).Canonical)
    (text : t = render (.operation q es) ∨ t = operandText (.operation q es)) (wide : width t < rate) :
    totalBurden rate e ≤ totalBurden rate (.operation q es) ∧
      (totalBurden rate (.operation q es) ≤ totalBurden rate e → Legible (.operation q es)) := by
  have inside : render (.operation q es) <:+: t := by
    rcases text with rfl | rfl
    · exact List.infix_rfl
    · exact render_inside_operandText _
  -- A group has the text of the operation inside, and an operand that is cut out whole is an operation
  -- in parentheses: both forms of the text have to go through the induction together.
  induction h generalizing q es with
  | @leaf a legible =>
      exact absurd ((separator_inside_render canonical).trans inside) (legible.plain.noOperator q)
  | @group t inner e grouped closed read ih =>
      rcases text with rfl | rfl
      · exact absurd closed (not_closed_render sound canonical)
      · have whole := eq_of_group? grouped
        obtain rfl : render (.operation q es) = inner := by
          rw [operandText_operation] at whole
          exact List.append_cancel_right (List.cons.inj whole).2
        rw [width_operandText] at wide
        exact ih sound canonical (.inl rfl) wide List.infix_rfl
  | @flat t op meaning _ found only each kept ih =>
      have carried : stripped t = [] ++ stripped (render (.operation q es)) := by
        rcases text with rfl | rfl
        · rfl
        · exact stripped_operandText _
      obtain ⟨le, same⟩ := flat_le sound canonical carry_nil only inside carried wide each
      rw [totalBurden, kept]
      refine ⟨le, fun all => ?_⟩
      obtain ⟨bare, ⟨a, leaf⟩ | ⟨leaves, operation, apart⟩⟩ := same all
      · cases leaf
      · rw [operation] at sound canonical inside bare ⊢
        rw [assignments_leaves] at bare
        exact legible_of_leaves sound canonical only inside bare apart
  | @layered t first rest op meaning _ both segs more each kept ih =>
      rcases text with rfl | rfl
      · have operand (d : Expression) (hd : d ∈ es) (mem : d.operandText ∈ first :: rest) :
            totalBurden rate (meaning d.operandText) ≤ totalBurden rate d ∧
              (totalBurden rate d ≤ totalBurden rate (meaning d.operandText) → d.Legible) := by
          have narrow : width d.operandText < rate :=
            Nat.lt_of_le_of_lt (text_of_segments segs ▸ width_le_of_mem op mem) wide
          have leaves : ∀ d ∈ es, Over Assignment.Legible d := by
            cases sound with | operation h => exact h
          cases leaves d hd with
          | @assignment a legible =>
              have itself := (each _ mem).eq_of_leaf legible (operandText_assignment a)
              exact ⟨Nat.le_of_eq (congrArg _ itself), fun _ => .assignment legible⟩
          | operation inner =>
              exact ih _ mem (.operation inner) (canonical.operands _ hd) (.inr rfl) narrow
                (render_inside_operandText _)
        obtain ⟨le, same⟩ :=
          layered_le sound canonical segs wide each fun d hd mem => (operand d hd mem).1
        rw [totalBurden, kept]
        refine ⟨le, fun all => ?_⟩
        obtain ⟨apart, kept_all⟩ := same all
        exact legible_of_both canonical
          (fun d hd => (operand d hd (kept_all d hd).1).2 (kept_all d hd).2) both apart
      · have closed : Closed (operandText (.operation q es)) := closed_enclosed sound.balanced_render
        rw [Closed, segs] at closed
        exact absurd (List.map_eq_nil_iff.mp closed) more

end ChoiceLogic.Reading
