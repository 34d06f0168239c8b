import ChoiceLogic.Proofs.Reading.Faithful
import ChoiceLogic.Proofs.Reading.Levels

/-! # The depth limit

Each step of reading takes at least two characters from a piece, a pair of parentheses or an operator,
and hands on what is left. So a text is never cut off at a depth of half its size, and where it was not
cut off a greater limit changes nothing.
-/

namespace ChoiceLogic.Reading

open Markup Text

variable {op : Operator} {t p : Text} {pieces parts : List Text}

/-! ## Each step shortens -/

theorem length_trim_le (t : Text) : (trim t).length ≤ t.length := by
  obtain ⟨g, h, -, -, whole⟩ := padded_trim t
  have sum := congrArg List.length whole
  simp only [List.length_append] at sum
  omega

theorem length_stripped_le (t : Text) : (stripped t).length ≤ t.length :=
  List.length_filter_le _ _

theorem two_le_length_separator (op : Operator) : 2 ≤ op.separator.length := by
  cases op <;> decide

theorem length_le_of_mem_intercalate {ps : List Text} (separator : Text) (two : 2 ≤ ps.length)
    (mem : p ∈ ps) : p.length + separator.length ≤ (separator.intercalate ps).length := by
  match ps, two with
  | first :: second :: rest, _ =>
      rw [List.intercalate_cons_cons]
      simp only [List.length_append]
      rcases List.mem_cons.mp mem with rfl | later
      · omega
      · have inside := (infix_intercalate separator later).length_le
        omega

theorem separator_inside_stripped (found : .mark (.operator op) ∈ Token.scan t) :
    op.separator <:+: stripped t := by
  obtain ⟨before, behind, whole⟩ : op.separator <:+: t := Token.infix_of_mark_mem_scan found
  refine ⟨stripped before, stripped behind, ?_⟩
  rw [← whole, stripped_append, stripped_append, stripped_of_bare (bare_separator op)]

/-- A text is cut at one operator at least. -/
theorem Cuts.two_le (cuts : Cuts t op pieces parts) : 2 ≤ pieces.length := by
  cases cuts with
  | flat found =>
      obtain ⟨first, rest, fragments⟩ := List.exists_cons_of_ne_nil (cut_ne_nil op.separator (stripped t))
      rw [Plan.fragments_eq, fragments, List.length_cons]
      cases rest with
      | cons => simp
      | nil =>
          have whole := text_of_fragments op t
          rw [Plan.fragments_eq, fragments, List.intercalate_singleton] at whole
          have mem : first ∈ Plan.fragments op t := by simp [Plan.fragments_eq, fragments]
          exact absurd (whole ▸ separator_inside_stripped found) (not_separator_inside_fragment mem)
  | layered _ _ more =>
      have some := List.length_pos_iff.mpr more
      rw [List.length_cons]
      omega

theorem Cuts.length_le (cuts : Cuts t op pieces parts) (mem : p ∈ parts) : p.length + 2 ≤ t.length := by
  have two := cuts.two_le
  have separator := two_le_length_separator op
  cases cuts with
  | flat =>
      have inside := length_le_of_mem_intercalate op.separator two (List.mem_eraseDups.mp mem)
      have smaller := length_stripped_le t
      rw [text_of_fragments] at inside
      omega
  | layered _ found =>
      obtain ⟨q, hq, rfl⟩ := List.mem_map.mp mem
      have inside := length_le_of_mem_intercalate op.separator two hq
      have smaller := length_trim_le q
      rw [← text_of_segments found] at inside
      omega

theorem length_of_group? {inner : Text} (grouped : group? (Token.scan (trim t)) = some inner) :
    inner.length + 2 ≤ t.length := by
  have whole := congrArg List.length (eq_of_group? grouped)
  have smaller := length_trim_le t
  simp only [List.length_cons, List.length_append, List.length_nil] at whole
  omega

/-! ## Enough levels -/

/-- With a level for every two characters, and one more, reading comes to its end. -/
theorem readAt_ne_tooDeep {maxDepth levels depth limit : Nat} (enough : t.length < 2 * levels) :
    (readAt maxDepth levels depth t).result ≠ .error (.tooDeep limit) := by
  induction levels generalizing depth t with
  | zero => exact absurd enough (Nat.not_lt_zero _)
  | succ levels ih =>
      have shape := planned t
      cases plan : Plan.of t with
      | settled result =>
          rw [plan] at shape
          rw [readAt_settled plan]
          cases shape with
          | blank | single => simp
          | fault unlimited =>
              rintro ⟨⟩
              exact unlimited rfl
      | unwrap remark inner =>
          rw [plan] at shape
          rw [readAt_unwrap plan]
          cases shape with
          | group _ grouped =>
              have shorter := length_of_group? grouped
              exact ih (by omega)
      | split remark op parts =>
          rw [plan] at shape
          rw [readAt_split plan]
          cases shape with
          | split _ _ cuts =>
              intro failed
              cases parsed : (Logged.each (readAt maxDepth levels (depth + 1)) parts).result with
              | ok es => simp [parsed, Except.map] at failed
              | error fault =>
                  simp only [parsed, Except.map, Except.error.injEq] at failed
                  obtain ⟨p, hp, cutOff⟩ := error_of_each_result (failed ▸ parsed)
                  have shorter := cuts.length_le hp
                  have smaller := length_trim_le t
                  exact ih (by omega) cutOff

/-- The depth limit only cuts off: a text that was not cut off has the same result under every greater
limit. And only long texts are cut off: none is under a limit of half its bytes. -/
theorem read_depthLimit (t : Text) (maxBytes : Nat) :
    (∀ maxDepth more, maxDepth ≤ more →
      (read ⟨maxDepth, maxBytes⟩ t).result ≠ .error (.tooDeep maxDepth) →
        (read ⟨more, maxBytes⟩ t).result = (read ⟨maxDepth, maxBytes⟩ t).result) ∧
    ∀ maxDepth limit, byteSize t / 2 ≤ maxDepth →
      (read ⟨maxDepth, maxBytes⟩ t).result ≠ .error (.tooDeep limit) := by
  by_cases fits : byteSize t ≤ maxBytes
  · constructor
    · intro maxDepth more le notCut
      rw [read_result fits] at notCut ⊢
      rw [read_result fits]
      exact readAt_mono notCut (Nat.succ_le_succ le)
    · intro maxDepth limit enough
      have short := length_le_byteSize t
      rw [read_result fits]
      exact readAt_ne_tooDeep (by simp only; omega)
  · have tooLong (maxDepth : Nat) : (read ⟨maxDepth, maxBytes⟩ t).result =
        .error (.tooLong (byteSize t) maxBytes) := by
      rw [read, if_pos (Nat.lt_of_not_le fits)]
      rfl
    exact ⟨fun _ _ _ _ => by rw [tooLong, tooLong], fun _ _ _ => by simp [tooLong]⟩

/-- A text that is cut off at depth zero, and has another fault under a limit of one and beyond. -/
theorem read_depthLimit_missing_value :
    let t : Text := "((A = B OR C = ))".toList
    let fault : Fault := .notOneAssignment "C =".toList
    (read ⟨0, 17⟩ t).result = .error (.tooDeep 0) ∧
      (read ⟨1, 17⟩ t).result ≠ .error (.tooDeep 1) ∧ byteSize t / 2 = 8 ∧
      (read ⟨64, 17⟩ t).result = .error fault ∧ (read ⟨8, 17⟩ t).result ≠ .error (.tooDeep 8) := by
  intro t fault
  have cutOff : (read ⟨0, 17⟩ t).result = .error (.tooDeep 0) := rfl
  have read : (read ⟨1, 17⟩ t).result = .error fault := rfl
  have notCut : (Reading.read ⟨1, 17⟩ t).result ≠ .error (.tooDeep 1) := by simp [read, fault]
  obtain ⟨same, enough⟩ := read_depthLimit t 17
  exact ⟨cutOff, notCut, by decide, (same 1 64 (by decide) notCut).trans read, enough 8 8 (by decide)⟩

end ChoiceLogic.Reading
