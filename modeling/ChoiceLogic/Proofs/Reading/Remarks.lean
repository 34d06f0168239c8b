import ChoiceLogic.Proofs.Reading.Reads
import Mathlib.Data.List.Chain

/-! # What is logged

A reading logs a remark for every step that leads to smaller pieces, before they are read, and at the end
that the text could not be read, if so. The remarks follow the tree of the pieces from the root: the
remarks on a piece and on those below it stand together, and so the depth never grows by more than one
from a remark to the next. A reading that is cut off was last at a piece as deep as the limit.
-/

namespace ChoiceLogic.Reading

/-- The entries for remarks, each given with its depth. -/
def Entry.ofSteps (steps : List (Nat × Remark)) : List Entry :=
  steps.map fun s => .step s.1 s.2

/-- What is logged at the end. A text that is too long has not been looked at. -/
def Entry.ofResult (input : Text) : Except Fault Expression → List Entry
  | .ok _ => []
  | .error (.tooLong _ _) => []
  | .error fault => [.rejected input fault]

/-- A remark names its depth. -/
theorem Entry.names_depth {steps : List (Nat × Remark)} :
    ∀ s ∈ steps, (Entry.step s.1 s.2).severity = .trace ∧
      "depth ".toList ++ Text.ofNat s.1 ++ ": ".toList <+: (Entry.step s.1 s.2).message :=
  fun _ _ => ⟨rfl, List.prefix_append _ _⟩

theorem Entry.severity_ofResult (input : Text) (result : Except Fault Expression) :
    ∀ entry ∈ ofResult input result, entry.severity = .debug := by
  intro entry mem
  unfold ofResult at mem
  split at mem
  · cases mem
  · cases mem
  · obtain rfl := List.mem_singleton.mp mem
    rfl

/-! ## Trails -/

/-- Remarks on pieces at a depth, and on the pieces below each of them, all above a limit. -/
inductive Trail (limit : Nat) : (depth : Nat) → List (Nat × Remark) → Prop where
  | nil {depth : Nat} : Trail limit depth []
  | step {depth : Nat} {steps : List (Nat × Remark)} (within : depth < limit) (remark : Remark)
      (below : Trail limit (depth + 1) steps) : Trail limit depth ((depth, remark) :: steps)
  | append {depth : Nat} {first second : List (Nat × Remark)} (left : Trail limit depth first)
      (right : Trail limit depth second) : Trail limit depth (first ++ second)

namespace Trail

variable {limit depth : Nat} {steps : List (Nat × Remark)}

theorem bounds (h : Trail limit depth steps) : ∀ s ∈ steps, depth ≤ s.1 ∧ s.1 < limit := by
  induction h with
  | nil => simp
  | step within remark _ ih =>
      intro s hs
      rcases List.mem_cons.mp hs with rfl | later
      · exact ⟨Nat.le_refl _, within⟩
      · have deeper := ih s later
        exact ⟨by omega, deeper.2⟩
  | append _ _ first second =>
      intro s hs
      exact (List.mem_append.mp hs).elim (first s) (second s)

theorem starts (h : Trail limit depth steps) : ∀ s ∈ steps.head?, s.1 = depth := by
  induction h with
  | nil => simp
  | step => simp
  | @append _ first _ _ _ left right =>
      cases first with
      | nil => exact right
      | cons s rest => exact left

theorem isChain (h : Trail limit depth steps) : steps.IsChain fun s next => next.1 ≤ s.1 + 1 := by
  induction h with
  | nil => exact .nil
  | step _ _ below ih => exact ih.cons fun s hs => Nat.le_of_eq (below.starts s hs)
  | append left right first second =>
      refine List.isChain_append.mpr ⟨first, second, fun s hs next hnext => ?_⟩
      have above := (left.bounds s (List.mem_of_getLast? hs)).1
      rw [right.starts next hnext]
      omega

/-- Nothing is remarked at the limit. -/
theorem eq_nil (h : Trail limit limit steps) : steps = [] := by
  refine List.eq_nil_iff_forall_not_mem.mpr fun s hs => ?_
  have := h.bounds s hs
  omega

end Trail

/-- The depth of the pieces below the last one that was remarked on, or of the first piece. -/
def depthBelow (depth : Nat) (steps : List (Nat × Remark)) : Nat :=
  steps.getLast?.elim depth (·.1 + 1)

theorem depthBelow_cons (depth : Nat) (remark : Remark) (steps : List (Nat × Remark)) :
    depthBelow depth ((depth, remark) :: steps) = depthBelow (depth + 1) steps := by
  cases steps with
  | nil => rfl
  | cons s steps => simp [depthBelow, List.getLast?_cons]

theorem depthBelow_append_cons (depth : Nat) (first : List (Nat × Remark)) (s : Nat × Remark)
    (second : List (Nat × Remark)) :
    depthBelow depth (first ++ s :: second) = depthBelow depth (s :: second) := by
  simp only [depthBelow, List.getLast?_append_cons]

theorem exists_last_of_depthBelow {limit depth : Nat} {steps : List (Nat × Remark)}
    (below : depthBelow depth steps = limit) (less : depth < limit) :
    ∃ s ∈ steps.getLast?, s.1 + 1 = limit := by
  unfold depthBelow at below
  cases last : steps.getLast? with
  | none =>
      rw [last] at below
      exact absurd below (Nat.ne_of_lt less)
  | some s =>
      rw [last] at below
      exact ⟨s, rfl, below⟩

/-! ## The log of a reading -/

/-- The log is a trail. Where reading was cut off, the trail ends just above the limit. -/
def Tracked {α : Type} (maxDepth limit depth : Nat) (x : Logged α) : Prop :=
  ∃ steps, x.log = Entry.ofSteps steps ∧ Trail limit depth steps ∧
    ∀ fault, x.result = .error fault → fault.kind = .limit →
      fault = .tooDeep maxDepth ∧ depthBelow depth steps = limit

namespace Tracked

variable {α β : Type} {maxDepth limit depth : Nat}

theorem after {x : Logged α} (h : Tracked maxDepth limit (depth + 1) x) (within : depth < limit)
    (remark : Remark) : Tracked maxDepth limit depth (x.after (.step depth remark)) := by
  obtain ⟨steps, log, trail, cut⟩ := h
  refine ⟨(depth, remark) :: steps, ?_, .step within remark trail, ?_⟩
  · rw [Logged.after, log]
    rfl
  · rw [depthBelow_cons]
    exact cut

theorem map {x : Logged α} (h : Tracked maxDepth limit depth x) (f : α → β) :
    Tracked maxDepth limit depth (x.map f) := by
  obtain ⟨steps, log, trail, cut⟩ := h
  refine ⟨steps, log, trail, fun fault failed => cut fault ?_⟩
  cases result : x.result with
  | ok a => simp [Logged.map, result, Except.map] at failed
  | error why => simpa [Logged.map, result, Except.map] using failed

/-- The parts are read one after the other, and the first one at fault is the last. -/
theorem each {f : α → Logged β} {as : List α} (h : ∀ a ∈ as, Tracked maxDepth limit depth (f a)) :
    Tracked maxDepth limit depth (Logged.each f as) := by
  induction as with
  | nil => exact ⟨[], rfl, .nil, nofun⟩
  | cons a as ih =>
      obtain ⟨first, log, trail, cut⟩ := h a (.head as)
      obtain ⟨rest, logs, trails, cuts⟩ := ih fun b hb => h b (.tail a hb)
      cases result : (f a).result with
      | error why =>
          refine ⟨first, ?_, trail, ?_⟩
          · simp only [Logged.each, result, log]
          · simp only [Logged.each, result, Except.error.injEq] at cut ⊢
            exact cut
      | ok b =>
          refine ⟨first ++ rest, ?_, .append trail trails, fun fault failed limited => ?_⟩
          · simp only [Logged.each, result, log, logs, Entry.ofSteps, List.map_append]
          · have later : (Logged.each f as).result = .error fault := by
              cases read : (Logged.each f as).result with
              | ok bs => simp [Logged.each, result, read, Except.map] at failed
              | error why => simpa [Logged.each, result, read, Except.map] using failed
            obtain ⟨deep, below⟩ := cuts fault later limited
            refine ⟨deep, ?_⟩
            cases rest with
            | cons s rest => rw [depthBelow_append_cons, below]
            | nil =>
                -- What was cut off without a remark is at the limit, and so is what was read before it.
                obtain rfl : depth = limit := below
                rw [trail.eq_nil]
                rfl

theorem log_closed {x : Logged Expression} (h : Tracked maxDepth limit depth x) (input : Text) :
    (x.closed input).log = x.log ++ Entry.ofResult input x.result := by
  obtain ⟨_, _, _, cut⟩ := h
  unfold Logged.closed
  cases result : x.result with
  | ok e => exact (List.append_nil _).symm
  | error fault =>
      cases fault with
      | tooLong bytes most => cases (cut _ result rfl).1
      | _ => rfl

end Tracked

theorem tracked_readAt (maxDepth levels depth : Nat) (t : Text) :
    Tracked maxDepth (depth + levels) depth (readAt maxDepth levels depth t) := by
  induction levels generalizing depth t with
  | zero =>
      refine ⟨[], rfl, .nil, fun fault failed _ => ⟨?_, rfl⟩⟩
      exact (Except.error.inj failed).symm
  | succ levels ih =>
      have below (p : Text) :
          Tracked maxDepth (depth + (levels + 1)) (depth + 1) (readAt maxDepth levels (depth + 1) p) := by
        have deeper := ih (depth + 1) p
        rwa [Nat.add_assoc, Nat.add_comm 1] at deeper
      have within : depth < depth + (levels + 1) := by omega
      have shape := planned t
      rw [readAt_succ]
      cases plan : Plan.of t with
      | settled result =>
          rw [plan] at shape
          refine ⟨[], rfl, .nil, fun fault failed limited => ?_⟩
          cases shape with
          | blank | single => cases failed
          | fault unlimited =>
              obtain rfl := Except.error.inj failed
              exact absurd limited unlimited
      | unwrap remark inner => exact (below inner).after within remark
      | split remark op parts =>
          exact ((Tracked.each fun p _ => below p).map (Expression.combine op)).after within remark

/-- What is logged about a text is a remark for each step, and then that the text could not be read, if it
was looked at and has a fault. The remarks start at depth zero, keep to the limit and go down by one depth
at most from one to the next. Where reading was cut off, the last remark is at the limit. -/
theorem log_read (limits : Limits) (input : Text) :
    ∃ steps : List (Nat × Remark),
      (read limits input).log = Entry.ofSteps steps ++ Entry.ofResult input (read limits input).result ∧
      (∀ s ∈ steps, (Entry.step s.1 s.2).severity = .trace ∧
        "depth ".toList ++ Text.ofNat s.1 ++ ": ".toList <+: (Entry.step s.1 s.2).message) ∧
      (∀ entry ∈ Entry.ofResult input (read limits input).result, entry.severity = .debug) ∧
      (∀ bytes limit, (read limits input).result = .error (.tooLong bytes limit) →
        (read limits input).log = []) ∧
      (∀ s ∈ steps.head?, s.1 = 0) ∧ (∀ s ∈ steps, s.1 ≤ limits.maxDepth) ∧
      (steps.IsChain fun s next => next.1 ≤ s.1 + 1) ∧
      ∀ limit, (read limits input).result = .error (.tooDeep limit) →
        ∃ s ∈ steps.getLast?, s.1 = limits.maxDepth := by
  by_cases fits : Text.byteSize input ≤ limits.maxBytes
  · have tracked := tracked_readAt limits.maxDepth (limits.maxDepth + 1) 0 input
    have whole := tracked.log_closed input
    obtain ⟨steps, log, trail, cut⟩ := tracked
    rw [read, if_neg (Nat.not_lt.mpr fits), closed_result]
    refine ⟨steps, whole.trans (by rw [log]), Entry.names_depth, Entry.severity_ofResult input _,
      fun bytes limit failed => ?_, trail.starts, fun s hs => ?_, trail.isChain, fun limit failed => ?_⟩
    · cases (cut _ failed rfl).1
    · have := (trail.bounds s hs).2
      omega
    · obtain ⟨s, last, deep⟩ := exists_last_of_depthBelow (cut _ failed rfl).2 (by omega)
      exact ⟨s, last, by omega⟩
  · have tooLong : read limits input = .fail (.tooLong (Text.byteSize input) limits.maxBytes) := by
      rw [read, if_pos (Nat.lt_of_not_le fits)]
    rw [tooLong]
    refine ⟨[], rfl, Entry.names_depth, Entry.severity_ofResult input _, fun _ _ _ => rfl, ?_, ?_,
      .nil, ?_⟩
    · simp
    · simp
    · simp [Logged.fail]

/-- A text that is cut off when the group in its first segment has been opened. -/
theorem log_read_cut_off :
    let t : Text := "((A = B AND C = D) OR E = F) AND G = H".toList
    let x := read ⟨1, 64⟩ t
    x.result = .error (.tooDeep 1) ∧ x.log.map Entry.severity = [.trace, .trace, .debug] ∧
      ∃ steps, x.log = Entry.ofSteps steps ++ [.rejected t (.tooDeep 1)] ∧
        ∃ s ∈ steps.getLast?, s.1 = 1 := by
  intro t x
  have cut : x.result = .error (.tooDeep 1) := rfl
  obtain ⟨steps, log, -, -, -, -, -, -, last⟩ := log_read ⟨1, 64⟩ t
  rw [show (read ⟨1, 64⟩ t).result = _ from cut] at log
  exact ⟨cut, rfl, steps, log, last 1 cut⟩

end ChoiceLogic.Reading
