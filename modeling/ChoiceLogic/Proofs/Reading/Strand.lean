import ChoiceLogic.Proofs.Markup.Recut
import ChoiceLogic.Proofs.Markup.Width
import ChoiceLogic.Proofs.Reading.Legible

/-! # Leaves in a row

The text of an expression without its parentheses is a row of the texts of its leaves with operators
between them. Where the text is scanned, an operator in the row is missed only behind a leaf that ends
in the word of another one, which is found in its place.
-/

namespace ChoiceLogic

open Markup Selection

theorem Assignment.Legible.plain {a : Assignment} (h : a.Legible) : Plain a.render where
  noOperator op := Text.occurs_eq_false_iff.mp (h.noOperator op)
  sign := a.sign_infix_render

namespace Expression

variable {p : Assignment → Prop} {o op : Operator} {e : Expression} {es : List Expression}

mutual
/-- The leaves from left to right, each with the operator that stands before it. -/
def strand (o : Operator) : Expression → List (Operator × Assignment)
  | .blank => []
  | .assignment a => [(o, a)]
  | .operation op es => operandStrand o op es

def operandStrand (o op : Operator) : List Expression → List (Operator × Assignment)
  | [] => []
  | e :: rest => strand o e ++ operandStrand op op rest
end

theorem map_snd_strand (h : Over p e) (o : Operator) : (strand o e).map (·.2) = e.assignments := by
  induction h generalizing o with
  | assignment => rfl
  | @operation op es each ih =>
      rw [strand, assignments_operation]
      induction es generalizing o with
      | nil => rfl
      | cons x es rest =>
          rw [operandStrand, List.map_append, List.flatMap_cons, ih x (.head es),
            rest (fun y hy => each y (.tail x hy)) (fun y hy => ih y (.tail x hy))]

/-- There is a first leaf, and only before it does the operator matter that stands before all. -/
theorem exists_strand (h : Over p e) (canonical : e.Canonical) :
    ∃ a items, ∀ o, strand o e = (o, a) :: items := by
  induction h with
  | @assignment a => exact ⟨a, [], fun _ => rfl⟩
  | @operation op es each ih =>
      obtain ⟨x, rest, rfl⟩ := List.exists_cons_of_ne_nil canonical.node.ne_nil
      obtain ⟨a, items, first⟩ := ih x (.head rest) (canonical.operands x (.head rest))
      refine ⟨a, items ++ operandStrand op op rest, fun o => ?_⟩
      rw [strand, operandStrand, first, List.cons_append]

/-- The text of a row of leaves, without parentheses. -/
def rowText (row : List (Operator × Assignment)) : Text :=
  row.flatMap fun s => s.1.separator ++ stripped s.2.render

theorem rowText_append (l m : List (Operator × Assignment)) :
    rowText (l ++ m) = rowText l ++ rowText m :=
  List.flatMap_append

theorem rowText_strand (h : Over p e) (canonical : e.Canonical) (o : Operator) :
    rowText (strand o e) = o.separator ++ stripped e.render := by
  induction h generalizing o with
  | assignment => simp [strand, rowText, render]
  | @operation op es each ih =>
      have row (o : Operator) (operands : List Expression) (some : operands ≠ [])
          (inside : ∀ x ∈ operands, x ∈ es) : rowText (operandStrand o op operands) =
            o.separator ++ stripped (op.separator.intercalate (operands.map operandText)) := by
        induction operands generalizing o with
        | nil => exact absurd rfl some
        | cons x operands rest =>
            have mem := inside x (.head operands)
            rw [operandStrand, rowText_append, ih x mem (canonical.operands x mem)]
            cases operands with
            | nil => simp [operandStrand, rowText, stripped_operandText]
            | cons y operands =>
                have later := rest op (List.cons_ne_nil y operands) fun z hz => inside z (.tail x hz)
                rw [later]
                simp only [List.map_cons, List.intercalate_cons_cons, stripped_append,
                  stripped_operandText, stripped_of_bare (bare_separator op), List.append_assoc]
      rw [strand, render_operation]
      exact row o es canonical.node.ne_nil fun x hx => hx

/-! ## Operators that are not found -/

/-- When only one operator is found in a text around two operands, another one between them is behind
a leaf that ends in the word of the one. -/
theorem hidden_joint {t u v : Text} {x : Expression} (h : Over Assignment.Legible x)
    (only : ∀ o, o ≠ op → .mark (.operator o) ∉ Token.scan t) (q : Operator)
    (whole : t = u ++ x.operandText ++ q.separator ++ v) {s : Operator × Assignment}
    (last : s ∈ (strand o x).getLast?) : q = op ∨ Text.EndsIn op.name s.2.render := by
  cases h with
  | @assignment a legible =>
      obtain rfl : (o, a) = s := by simpa [strand] using last
      rw [operandText_assignment] at whole
      rcases legible.plain.operator_mem_scan u q v with ⟨-, found⟩ | ⟨p, ends, found⟩
      · exact .inl (Token.eq_of_only only (whole ▸ found))
      · exact .inr (Token.eq_of_only only (whole ▸ found) ▸ ends)
  | @operation p inner =>
      refine .inl (Token.eq_of_only only ?_)
      have apart := not_endsInOperator_closing (u ++ '(' :: render (.operation p inner))
      rw [List.append_assoc, List.cons_append, ← operandText_operation] at apart
      rw [whole, Token.scan_append_operator q apart]
      simp

theorem isChain_strand {t : Text} (h : Over Assignment.Legible e) (canonical : e.Canonical)
    (only : ∀ o, o ≠ op → .mark (.operator o) ∉ Token.scan t) (inside : e.render <:+: t)
    (o : Operator) :
    (strand o e).IsChain fun x y => y.1 = op ∨ Text.EndsIn op.name x.2.render := by
  induction h generalizing o with
  | assignment => exact .singleton _
  | @operation q es each ih =>
      have row (operands : List Expression) (among : ∀ x ∈ operands, x ∈ es) (o : Operator)
          (inside : q.separator.intercalate (operands.map operandText) <:+: t) :
          (operandStrand o q operands).IsChain fun x y => y.1 = op ∨ Text.EndsIn op.name x.2.render := by
        induction operands generalizing o with
        | nil => exact .nil
        | cons x operands rest =>
            have mem := among x (.head operands)
            have here := (render_inside_operandText x).trans
              ((Text.infix_intercalate q.separator (.head (operands.map operandText))).trans inside)
            have first := ih x mem (canonical.operands x mem) here o
            cases operands with
            | nil => simpa [operandStrand] using first
            | cons y operands =>
                have next := among y (.tail x (.head operands))
                rw [List.map_cons, List.map_cons, List.intercalate_cons_cons, ← List.map_cons] at inside
                have later := rest (fun z hz => among z (.tail x hz)) q
                  ((List.suffix_append _ _).isInfix.trans inside)
                obtain ⟨u, v, whole⟩ := inside
                obtain ⟨b, items, second⟩ := exists_strand (each y next) (canonical.operands y next)
                refine List.isChain_append.mpr ⟨first, later, fun s last s' head => ?_⟩
                rw [operandStrand, second, List.cons_append, List.head?_cons] at head
                obtain rfl := Option.some.inj head
                refine hidden_joint (each x mem) only q (u := u)
                  (v := q.separator.intercalate ((y :: operands).map operandText) ++ v) ?_ last
                rw [← whole]
                simp only [List.append_assoc]
      rw [render_operation] at inside
      exact row es (fun x hx => hx) o inside

/-! ## One operator in the row -/

/-- An operator that stands inside an operand stands inside the whole. -/
theorem mem_tail_operandStrand (each : ∀ x ∈ es, Over p x) (canonical : ∀ x ∈ es, x.Canonical)
    {x : Expression} (hx : x ∈ es) (o o' : Operator) {s : Operator × Assignment}
    (hs : s ∈ (strand o' x).tail) : s ∈ (operandStrand o op es).tail := by
  induction es generalizing o with
  | nil => cases hx
  | cons y es ih =>
      obtain ⟨a, items, first⟩ := exists_strand (each y (.head es)) (canonical y (.head es))
      rw [operandStrand, first, List.cons_append, List.tail_cons, List.mem_append]
      rcases List.mem_cons.mp hx with rfl | hx
      · rw [first, List.tail_cons] at hs
        exact .inl hs
      · exact .inr (List.mem_of_mem_tail (ih (fun z hz => each z (.tail y hz))
          (fun z hz => canonical z (.tail y hz)) hx op))

theorem exists_leaves (h : ∀ x ∈ es, ∃ a, x = .assignment a) :
    ∃ leaves : List Assignment, es = leaves.map .assignment := by
  induction es with
  | nil => exact ⟨[], rfl⟩
  | cons x es ih =>
      obtain ⟨a, rfl⟩ := h x (.head es)
      obtain ⟨leaves, rfl⟩ := ih fun y hy => h y (.tail _ hy)
      exact ⟨a :: leaves, rfl⟩

theorem assignments_leaves (op : Operator) (leaves : List Assignment) :
    assignments (.operation op (leaves.map .assignment)) = leaves := by
  rw [assignments_operation, List.flatMap_map]
  exact List.flatMap_singleton' leaves

/-- Where the same operator stands before every leaf but the first, there is no other operation. -/
theorem leaves_of_strand (h : Over p e) (canonical : e.Canonical) (o : Operator)
    (same : ∀ s ∈ (strand o e).tail, s.1 = op) :
    (∃ a, e = .assignment a) ∨
      ∃ leaves : List Assignment, e = .operation op (leaves.map .assignment) := by
  induction h with
  | assignment => exact .inl ⟨_, rfl⟩
  | @operation q es each ih =>
      have node := canonical.node
      have hq : q = op := by
        obtain ⟨x, y, rest, rfl⟩ := node.exists_operands
        have later : y ∈ x :: y :: rest := .tail x (.head rest)
        obtain ⟨a, items, first⟩ := exists_strand (each x (.head _)) (canonical.operands x (.head _))
        obtain ⟨b, others, second⟩ := exists_strand (each y later) (canonical.operands y later)
        apply same (q, b)
        rw [strand, operandStrand, operandStrand, first, second]
        simp
      subst hq
      have leaf (z : Expression) (hz : z ∈ es) : ∃ a, z = .assignment a := by
        have inner := fun s hs => same s (mem_tail_operandStrand each canonical.operands hz o o hs)
        rcases ih z hz (canonical.operands z hz) inner with leaf | ⟨leaves, operation⟩
        · exact leaf
        · exact absurd operation (node.flat z hz _)
      obtain ⟨leaves, rfl⟩ := exists_leaves leaf
      exact .inr ⟨leaves, rfl⟩

/-- Where one operator is found in a text around some leaves, a leaf before another may end only in
the word of that one. -/
theorem endsIn_of_endsInOperator {t : Text} {leaves : List Assignment}
    (legible : ∀ a ∈ leaves, a.Legible) (only : ∀ o, o ≠ op → .mark (.operator o) ∉ Token.scan t)
    (inside : op.separator.intercalate (leaves.map Assignment.render) <:+: t) :
    ∀ a ∈ leaves.dropLast, EndsInOperator a.render → Text.EndsIn op.name a.render := by
  induction leaves with
  | nil => simp
  | cons a leaves ih =>
      cases leaves with
      | nil => simp
      | cons b leaves =>
          rw [List.map_cons, List.map_cons, List.intercalate_cons_cons, ← List.map_cons] at inside
          have later := ih (fun d hd => legible d (.tail a hd))
            ((List.suffix_append _ _).isInfix.trans inside)
          intro d hd ends
          rw [List.dropLast_cons_cons] at hd
          rcases List.mem_cons.mp hd with rfl | hd
          · obtain ⟨u, v, whole⟩ := inside
            let behind := op.separator.intercalate ((b :: leaves).map Assignment.render) ++ v
            have split : t = u ++ d.render ++ op.separator ++ behind := by
              rw [← whole]
              simp only [behind, List.append_assoc]
            rcases (legible d (.head _)).plain.operator_mem_scan u op behind with
              ⟨apart, -⟩ | ⟨o, word, found⟩
            · exact absurd ends apart
            · exact Token.eq_of_only only (split ▸ found) ▸ word
          · exact later d hd ends

end Expression

end ChoiceLogic
