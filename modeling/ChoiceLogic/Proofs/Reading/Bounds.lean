import ChoiceLogic.Proofs.Markup.Closed
import ChoiceLogic.Proofs.Reading.DepthLimit
import ChoiceLogic.Proofs.Reading.OneOperator
import ChoiceLogic.Proofs.Reading.RoundTrip

/-! # Bounds on what is read

How deep an expression can be is bounded by the depth to which its text was read, and how many leaves it
can have by the size of the text. Each operation takes a level. The parts of a text with both operators
are closed, so that a part with both operators takes a level more to drop its parentheses. A text with one
operator can hide no more than one operation, and is read as three levels of an expression at most.
-/

namespace ChoiceLogic

open Markup Selection Text

namespace Expression

variable {op : Operator} {es : List Expression} {e x : Expression} {limit : Nat}

theorem maxDepth_le (each : ∀ e ∈ es, e.depth ≤ limit) : maxDepth es ≤ limit := by
  by_cases none : es = []
  · simp [none, maxDepth]
  · obtain ⟨e, he, deepest⟩ := exists_depth_eq_maxDepth none
    exact deepest ▸ each e he

theorem depth_le_of_mem_operandsFor (h : x ∈ operandsFor op e) : x.depth ≤ e.depth := by
  have itself (y : Expression) (hy : x ∈ [y]) : x.depth ≤ y.depth := by
    rw [List.mem_singleton.mp hy]
  cases e with
  | blank | assignment => exact itself _ h
  | operation o operands =>
      rw [operandsFor] at h
      split at h
      · have inside := depth_le_maxDepth h
        rw [depth]
        omega
      · exact itself _ h

/-- An operation is put on top of the operands, unless it is merged with the operands of one of them. -/
theorem depth_combine_le (op : Operator) (each : ∀ e ∈ es, e.depth ≤ limit) :
    (combine op es).depth ≤ limit + 1 := by
  have kept (x : Expression) (hx : x ∈ survivors op es) : x.depth ≤ limit := by
    obtain ⟨e, he, hxe⟩ := List.mem_flatMap.mp (mem_flatMap_of_mem_survivors hx)
    exact Nat.le_trans (depth_le_of_mem_operandsFor hxe) (each e he)
  rcases combine_cases op es with ⟨-, result⟩ | ⟨x, one, result⟩ | ⟨-, result⟩
  · simp [result, depth]
  · exact result ▸ Nat.le_succ_of_le (kept x (by simp [one]))
  · have operands := maxDepth_le kept
    rw [result, depth]
    omega

theorem Flat.depth_le (h : Flat op e) : e.depth ≤ 2 := by
  cases h with
  | assignment => simp [depth]
  | @operation operands leaves =>
      have shallow : maxDepth operands ≤ 1 := by
        refine maxDepth_le fun e he => ?_
        obtain ⟨a, rfl⟩ := leaves e he
        simp [depth]
      rw [depth]
      omega

end Expression

namespace Reading

open Expression

variable {op : Operator} {t : Text} {pieces parts : List Text} {e : Expression}

/-! ## Depth -/

/-- Behind the parentheses of a text with one operator there may be another operation, and no more. -/
theorem depth_combine_fragments_le {maxDepth levels depth : Nat} {meaning : Text → Expression}
    (filled : ∀ p ∈ Plan.fragments op t, ¬ Blank p)
    (each : ∀ p ∈ Plan.fragments op t,
      (readAt maxDepth levels depth p).result = .ok (meaning p)) :
    (combine op ((Plan.fragments op t).eraseDups.map meaning)).depth ≤ 3 := by
  refine depth_combine_le op (List.forall_mem_map.mpr fun p hp => ?_)
  have mem := List.mem_eraseDups.mp hp
  have fragment : Fragment op p (meaning p) := fragment_of_readAt (each p mem) (filled p mem)
    (bare_of_mem_fragments mem) (not_separator_inside_fragment mem)
  obtain ⟨o, -, flat⟩ := fragment.exists_flat
  exact flat.depth_le

/-- A closed text has to give up its parentheses before it can be cut at an operator, so it is the less
deep at the same number of levels. -/
theorem depth_le_of_readAt {maxDepth levels depth : Nat}
    (read : (readAt maxDepth levels depth t).result = .ok e) :
    e.depth ≤ levels ∧ 2 * e.depth ≤ levels + 4 ∧ (Closed (trim t) → 2 * e.depth ≤ levels + 3) := by
  induction levels generalizing depth t e with
  | zero => cases read
  | succ levels ih =>
      have shape := planned t
      cases plan : Plan.of t with
      | settled result =>
          rw [plan] at shape
          rw [readAt_settled plan] at read
          subst read
          have shallow : e.depth ≤ 1 := by
            cases shape with
            | blank | single => simp [Expression.depth]
          exact ⟨by omega, by omega, fun _ => by omega⟩
      | unwrap remark inner =>
          rw [readAt_unwrap plan] at read
          obtain ⟨deep, wide, -⟩ := ih read
          exact ⟨by omega, by omega, fun _ => by omega⟩
      | split remark op parts =>
          rw [plan] at shape
          obtain ⟨meaning, each, rfl⟩ := exists_meaning_of_split plan read
          have deep : (combine op (parts.map meaning)).depth ≤ levels + 1 :=
            depth_combine_le op (List.forall_mem_map.mpr fun p hp => (ih (each p hp)).1)
          cases shape with
          | @split _ _ pieces _ sign balanced cuts =>
              cases cuts with
              | flat found only filled =>
                  have three := depth_combine_fragments_le filled
                    fun p hp => each p (List.mem_eraseDups.mpr hp)
                  exact ⟨by omega, by omega, fun _ => by omega⟩
              | @layered first rest both found more filled =>
                  -- The parts are closed: what is put on top of them takes the level that they spare.
                  have below : ∀ e ∈ ((first :: rest).map trim).map meaning,
                      e.depth ≤ (levels + 3) / 2 := by
                    refine List.forall_mem_map.mpr fun p hp => ?_
                    obtain ⟨q, hq, rfl⟩ := List.mem_map.mp hp
                    obtain ⟨inner, closed⟩ := closed_of_mem_segments balanced found q (by simpa using hq)
                    have spare := (ih (each _ hp)).2.2 (by simpa using closed.trim inner)
                    omega
                  have wide := depth_combine_le op below
                  refine ⟨by omega, by omega, fun closed => ?_⟩
                  have uncut : rest.map (op, ·) = [] := (congrArg Prod.snd found).symm.trans closed
                  exact absurd (List.map_eq_nil_iff.mp uncut) more

/-! ## Leaves -/

theorem Cuts.sum_length_le (cuts : Cuts t op pieces parts) :
    (parts.map fun p => p.length + op.separator.length).sum ≤ t.length + op.separator.length := by
  have append (u v : Text) : (u ++ v).length = u.length + v.length := List.length_append
  have joined := sum_intercalate append op.separator cuts.nonempty
  cases cuts with
  | flat =>
      have fewer := ((eraseDupsBy_sublist (· == ·) (Plan.fragments op t)).map
        fun p => p.length + op.separator.length).sum_le_sum fun _ _ => Nat.zero_le _
      have smaller := length_stripped_le t
      rw [text_of_fragments] at joined
      exact Nat.le_trans fewer (by omega)
  | @layered first rest both found =>
      rw [← text_of_segments found] at joined
      rw [List.map_map, ← joined]
      exact List.sum_le_sum fun p _ => Nat.add_le_add_right (length_trim_le p) _

theorem length_of_single {family value : Text} {a : Assignment}
    (parts : cut Assignment.sign t = [family, value]) (made : Assignment.ofParts family value = .ok a) :
    5 ≤ t.length := by
  obtain ⟨hf, hv⟩ := Assignment.parts_of_ofParts made
  have smaller := length_trim_le family
  have smaller' := length_trim_le value
  have some : 0 < (trim family).length := List.length_pos_iff.mpr (hf ▸ a.family_trimmed.1)
  have some' : 0 < (trim value).length := List.length_pos_iff.mpr (hv ▸ a.value_trimmed.1)
  have sign : Assignment.sign.length = 3 := rfl
  rw [text_of_sign parts, List.length_append, List.length_append, sign]
  omega

/-- Five characters for a leaf, and four for what joins it to another. -/
theorem Reads.leaves_le (h : Reads t e) : load (fun _ => 9) e ≤ t.length + 4 := by
  induction h with
  | blank => simp
  | @single t family value a _ _ _ _ parts made =>
      have five := length_of_single parts made
      have smaller := length_trim_le t
      rw [load_assignment]
      omega
  | group _ grouped _ _ ih =>
      have shorter := length_of_group? grouped
      omega
  | @split t op pieces parts meaning _ _ cuts each ih =>
      have operands : ∀ e ∈ parts.map meaning, e.Canonical :=
        List.forall_mem_map.mpr fun p hp => (each p hp).canonical
      have some : 0 < parts.length := List.length_pos_iff.mpr cuts.parts_ne_nil
      have smaller := length_trim_le t
      calc load (fun _ => 9) (combine op (parts.map meaning))
          ≤ ((parts.map meaning).map (load fun _ => 9)).sum := load_combine_le _ op operands
        _ = (parts.map fun p => load (fun _ => 9) (meaning p)).sum := by rw [List.map_map]; rfl
        _ ≤ (parts.map fun p => p.length + 4).sum := List.sum_le_sum ih
        _ ≤ t.length + 4 := by
            have joined := cuts.sum_length_le
            rw [List.sum_map_add, List.map_const', List.sum_replicate_nat] at joined ⊢
            cases op with
            | and =>
                have five : Operator.and.separator.length = 5 := rfl
                rw [five] at joined
                omega
            | or =>
                have four : Operator.or.separator.length = 4 := rfl
                rw [four] at joined
                omega

theorem load_const (n : Nat) (e : Expression) : load (fun _ => n) e = n * e.assignmentCount := by
  rw [load, List.map_const', List.sum_replicate_nat, Nat.mul_comm]
  rfl

/-- The depth limit bounds the depth of every expression that is read, in the long run by half the limit,
and the size of a text bounds the number of its leaves. -/
theorem bounds_of_read {limits : Limits} (h : (read limits t).result = .ok e) :
    e.depth ≤ limits.maxDepth + 1 ∧ 2 * e.depth ≤ limits.maxDepth + 5 ∧
      9 * e.assignmentCount ≤ byteSize t + 4 := by
  have whole := readAt_of_read h
  obtain ⟨deep, wide, -⟩ := depth_le_of_readAt whole
  have leaves := (reads_of_readAt whole).leaves_le
  have characters := length_le_byteSize t
  rw [load_const] at leaves
  exact ⟨deep, by omega, by omega⟩

/-- A text with which both bounds on the depth are reached, and one that is as short as its leaves
allow. -/
theorem bounds_of_read_reached :
    let a : Expression := .assignment ⟨['A'], ['1'], by decide, by decide⟩
    let b : Expression := .assignment ⟨['B'], ['2'], by decide, by decide⟩
    let c : Expression := .assignment ⟨['C'], ['3'], by decide, by decide⟩
    let d : Expression := .assignment ⟨['D'], ['4'], by decide, by decide⟩
    let t : Text := "A = 1 OR (B = 2 AND C = 3 O()R D = 4)".toList
    let e : Expression := .operation .or [a, .operation .and [b, .operation .or [c, d]]]
    let u : Text := "C = 3 OR D = 4".toList
    (read ⟨3, 37⟩ t).result = .ok e ∧ (read ⟨1, 14⟩ u).result = .ok (.operation .or [c, d]) ∧
      e.depth = 3 + 1 ∧ 2 * e.depth = 3 + 5 ∧
      9 * (Expression.operation .or [c, d]).assignmentCount = byteSize u + 4 := by
  intro a b c d t e u
  have inner : combine .or [c, d] = .operation .or [c, d] :=
    combine_of_canonicalNode ⟨by decide, by simp [c, d], by decide, by decide⟩
  have middle : combine .and [b, .operation .or [c, d]] = .operation .and [b, .operation .or [c, d]] :=
    combine_of_canonicalNode ⟨by decide, by simp [b], by decide, by decide⟩
  have outer : combine .or [a, .operation .and [b, .operation .or [c, d]]] = e :=
    combine_of_canonicalNode ⟨by decide, by simp [a], by decide, by decide⟩
  have short : (read ⟨1, 14⟩ u).result = .ok (combine .or [c, d]) := rfl
  have long : (read ⟨3, 37⟩ t).result = .ok (combine .or [a, combine .and [b, combine .or [c, d]]]) := rfl
  rw [inner] at short
  rw [inner, middle, outer] at long
  obtain ⟨deep, wide, -⟩ := bounds_of_read long
  obtain ⟨-, -, leaves⟩ := bounds_of_read short
  exact ⟨long, short, Nat.le_antisymm deep (by decide), Nat.le_antisymm wide (by decide),
    Nat.le_antisymm leaves (by decide)⟩

end Reading

end ChoiceLogic
