import ChoiceLogic.Proofs.Combine.Flattening
import ChoiceLogic.Proofs.Text.ByteOrder

/-! # Which operands are dropped

The likeness that `combine` asks for is loose, and it is asked of the operands that were kept so far.
On expressions built by `combine` it comes to a plain rule: an operand is dropped exactly if it is an
assignment that has occurred before, or an operation whose operator and text have occurred before,
whether or not what occurred before was dropped itself.
-/

namespace ChoiceLogic.Selection

variable {α : Type} {r : α → α → Bool}

/-- The elements of the second list that repeat nothing in the first and nothing before them in the
second, be it a repeat itself or not. -/
def firstsAfter (r : α → α → Bool) (before : List α) : List α → List α
  | [] => []
  | a :: rest =>
    if before.any (r a) then firstsAfter r (a :: before) rest
    else a :: firstsAfter r (a :: before) rest

/-- The elements that repeat no element before them. -/
def firsts (r : α → α → Bool) (l : List α) : List α :=
  firstsAfter r [] l

theorem Repetition.firstsAfter_eq (hr : Repetition r) (before l : List α) :
    firstsAfter r before l = (l.eraseDupsBy r).filter fun a => !before.any (r a) := by
  induction l generalizing before with
  | nil => rfl
  | cons a l ih =>
      have later : firstsAfter r (a :: before) l =
          (unlike r a (l.eraseDupsBy r)).filter fun b => !before.any (r b) := by
        rw [ih, unlike, List.filter_filter]
        refine List.filter_congr fun b _ => ?_
        rw [List.any_cons]
        cases r b a <;> simp
      rw [firstsAfter, eraseDupsBy_cons, ← hr.unlike_eraseDupsBy, List.filter_cons, later]
      cases before.any (r a) <;> rfl

/-- It makes no difference whether elements are compared with all before them or with those kept. -/
theorem Repetition.firsts_eq (hr : Repetition r) (l : List α) : firsts r l = l.eraseDupsBy r := by
  rw [firsts, hr.firstsAfter_eq]
  exact List.filter_eq_self.mpr fun _ _ => rfl

end ChoiceLogic.Selection

namespace ChoiceLogic.Expression

variable {op : Operator} {es kept : List Expression}

/-- The same assignment, or an operation with the same operator and the same text. -/
def restates : Expression → Expression → Bool
  | .assignment a, .assignment b => a = b
  | .operation o xs, .operation p ys => o = p && render (.operation o xs) = render (.operation p ys)
  | _, _ => false

theorem restates_eq_sameIdentity : restates = sameIdentity := by
  funext x y
  cases x <;> cases y <;> simp [restates, sameIdentity, identity?]

/-- The second list has the elements of the first in the order of the bytes of their texts, and those of
one text in the order in which they came. -/
structure StablySorted (es sorted : List Expression) : Prop where
  perm : sorted.Perm es
  ascending : sorted.Pairwise fun x y => ¬ Text.BytesBefore (y.render).utf8 (x.render).utf8
  stable : ∀ t, sorted.filter (fun e => e.render = t) = es.filter fun e => e.render = t

/-- There is one way to sort. -/
theorem stablySorted_iff : StablySorted es kept ↔ kept = Selection.sorted render es := by
  constructor
  · intro h
    have ascending : Selection.Ascending render kept :=
      h.ascending.imp fun behind => (Text.notAfter_iff _ _).mpr behind
    rw [← Selection.sorted_of_ascending render ascending]
    exact Selection.sorted_congr render h.stable
  · rintro rfl
    refine ⟨Selection.sorted_perm render es, ?_, fun t => Selection.withKey_sorted render t es⟩
    exact (Selection.ascending_sorted render es).imp fun before => (Text.notAfter_iff _ _).mp before

theorem survivors_eq_sorted_firsts (canonical : ∀ e ∈ es, e.Canonical) :
    survivors op es =
      Selection.sorted render (Selection.firsts restates (es.flatMap (operandsFor op))) := by
  rw [survivors_eq, eraseDupsBy_repeats (canonical_of_mem_flatMap canonical),
    ← repetition_sameIdentity.firsts_eq, restates_eq_sameIdentity]

theorem mem_survivors_of_assignment {a : Assignment} (canonical : ∀ e ∈ es, e.Canonical)
    (mem : .assignment a ∈ es.flatMap (operandsFor op)) : .assignment a ∈ survivors op es := by
  rw [survivors_eq, eraseDupsBy_repeats (canonical_of_mem_flatMap canonical),
    (Selection.sorted_perm render _).mem_iff]
  obtain ⟨x, kept, rfl | same⟩ := Selection.exists_mem_eraseDupsBy sameIdentity mem
  · exact kept
  · cases x with
    | blank | operation => simp [sameIdentity, identity?] at same
    | assignment b =>
        obtain rfl : a = b := by simpa [sameIdentity, identity?] using same
        exact kept

/-- A blank repeats nothing, so every blank is kept. -/
theorem count_blank_survivors (op : Operator) (es : List Expression) :
    (survivors op es).count .blank = (es.flatMap (operandsFor op)).count .blank := by
  have whole (l : List Expression) :
      (l.eraseDupsBy repeats).filter (· == .blank) = l.filter (· == .blank) := by
    rw [Selection.filter_eraseDupsBy]
    · refine Selection.eraseDupsBy_of_pairwise (List.pairwise_of_forall_mem_list fun x hx y hy => ?_)
      obtain rfl : x = .blank := by simpa using (List.mem_filter.mp hx).2
      simp [repeats, alike]
    · intro x y same
      cases x <;> cases y <;> simp [repeats, alike] at same ⊢
  rw [survivors_eq, (Selection.sorted_perm render _).count_eq, List.count_eq_length_filter, whole,
    ← List.count_eq_length_filter]

/-- What `combine` keeps of expressions that it has built is all that does not restate something before
it, sorted. So every assignment is among what is kept, no operation is dropped only because it has the
same operands as one with the other operator, and every blank stays. -/
theorem stablySorted_firsts_iff (op : Operator) {es : List Expression} (built : ∀ e ∈ es, e.Obtainable) :
    (∀ kept, StablySorted (Selection.firsts restates (es.flatMap (operandsFor op))) kept ↔
      kept = survivors op es) ∧
    (∀ a, .assignment a ∈ es.flatMap (operandsFor op) → .assignment a ∈ survivors op es) ∧
    (∀ o p operands, .operation o operands ∈ es.flatMap (operandsFor op) →
      .operation p operands ∈ es.flatMap (operandsFor op) →
      render (.operation o operands) = render (.operation p operands) → o = p) ∧
    (survivors op es).count .blank = (es.flatMap (operandsFor op)).count .blank := by
  have canonical : ∀ e ∈ es, e.Canonical := fun e he => (built e he).canonical
  refine ⟨fun kept => ?_, fun a mem => ?_, fun o p operands mem _ text => ?_, ?_⟩
  · rw [stablySorted_iff, survivors_eq_sorted_firsts canonical]
  · exact mem_survivors_of_assignment canonical mem
  · exact operator_eq_of_render_eq (canonical_of_mem_flatMap canonical _ mem).node.two_le text
  · exact count_blank_survivors op es

/-- Of two assignments that look the same both stay; of two operations that look the same the first
stays. -/
theorem stablySorted_firsts_iff_odd_values :
    let a : Assignment := ⟨"A".toList, "= B".toList, by decide, by decide⟩
    let b : Assignment := ⟨"A =".toList, "B".toList, by decide, by decide⟩
    let c : Expression := .assignment ⟨"C".toList, "D".toList, by decide, by decide⟩
    let first : Expression := .operation .or [.assignment a, c]
    let second : Expression := .operation .or [.assignment b, c]
    let es : List Expression :=
      [.blank, first, .assignment b, second, .assignment a, .blank, .assignment b]
    (∀ e ∈ es, e.Obtainable) ∧ second ≠ first ∧
      StablySorted [.blank, first, .assignment b, .assignment a, .blank] (survivors .and es) ∧
      .assignment a ∈ survivors .and es ∧ (survivors .and es).count .blank = 2 := by
  intro a b c first second es
  have node (d : Assignment) (canonical : CanonicalNode .or [.assignment d, c]) :
      (Expression.operation .or [.assignment d, c]).Obtainable := by
    refine combine_of_canonicalNode canonical ▸ .combine _ _ ?_
    simp only [List.mem_cons, List.not_mem_nil, or_false]
    rintro e (rfl | rfl)
    · exact .assignment _
    · exact .assignment _
  have built : ∀ e ∈ es, e.Obtainable := by
    simp only [es, List.mem_cons, List.not_mem_nil, or_false]
    rintro e (rfl | rfl | rfl | rfl | rfl | rfl | rfl)
    · exact .blank
    · exact node a ⟨by decide, by simp [c], by decide, by decide⟩
    · exact .assignment _
    · exact node b ⟨by decide, by simp [c], by decide, by decide⟩
    · exact .assignment _
    · exact .blank
    · exact .assignment _
  have plain : Selection.firsts restates (es.flatMap (operandsFor .and)) =
      [.blank, first, .assignment b, .assignment a, .blank] := by decide
  obtain ⟨sorted, kept, -, blanks⟩ := stablySorted_firsts_iff .and built
  exact ⟨built, by decide, plain ▸ (sorted _).mpr rfl, kept a (by decide), blanks⟩

end ChoiceLogic.Expression
