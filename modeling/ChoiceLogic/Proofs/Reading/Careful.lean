import ChoiceLogic.Proofs.Markup.Careful
import ChoiceLogic.Proofs.Reading.Faithful
import ChoiceLogic.Reading.Basic

/-! # Reading by bytes

A reading in which every piece is taken apart by the bytes of its tokens, and which stops at the first
step that cannot be taken. It never stops that way, and what it comes to is what the text is read as.
-/

namespace ChoiceLogic.Reading

open Markup Text

namespace Careful

open Markup.Careful

/-! ## Plans -/

/-- The plan for a piece without operators. Two sides of a sign have to make an assignment. -/
def single (piece : Text) (spans : List Span) : Except Misstep Plan := do
  match ← group? piece spans with
  | some inner => return .unwrap (.assignmentUnwrapped piece) inner
  | none =>
    match Text.cut Assignment.sign piece with
    | [family, value] =>
      match Assignment.ofParts family value with
      | .ok a => return .settled (.ok (.assignment a))
      | .error why => .error (.noAssignment why)
    | _ => return .settled (.error (.notOneAssignment piece))

/-- The plan for a piece that has both operators. -/
def layered (piece : Text) (spans : List Span) : Except Misstep Plan := do
  match ← separators 0 spans with
  | [] =>
    match ← group? piece spans with
    | some inner => return .unwrap (.groupUnwrapped piece) inner
    | none => return .settled (.error (.noOuterOperator piece))
  | s :: others =>
    let op ← operatorAt piece s
    if ← uniform piece op others then
      let parts := (← segments piece 0 (s :: others)).map trim
      if parts.any (·.isEmpty) then return .settled (.error (.noOperand op piece))
      else return .split (.segments op parts.length) op parts
    else return .settled (.error (.mixedOperators piece))

/-- The plan for a trimmed piece. -/
def ofPiece (piece : Text) : Except Misstep Plan := do
  let spans := spans piece
  match ← imbalance? spans with
  | some why => return .settled (.error (.unbalanced why))
  | none =>
    let has (op : Operator) : Bool := spans.any (·.mark? = some (.operator op))
    match has .and, has .or with
    | false, false => single piece spans
    | true, false => return Plan.flat .and piece
    | false, true => return Plan.flat .or piece
    | true, true => layered piece spans

/-- The plan for any text. -/
def plan (t : Text) : Except Misstep Plan :=
  let piece := trim t
  if piece = [] then .ok (.settled (.ok .blank))
  else if occurs Assignment.sign t then ofPiece piece
  else .ok (.settled (.error (.noAssignment piece)))

/-! ## Readings -/

/-- The results for all elements in order, up to the first fault or misstep. -/
def each {α β : Type} (f : α → Except Misstep (Logged β)) : List α → Except Misstep (Logged (List β))
  | [] => .ok ⟨[], .ok []⟩
  | a :: rest => do
    let x ← f a
    match x.result with
    | .error fault => return ⟨x.log, .error fault⟩
    | .ok b =>
      let y ← each f rest
      return ⟨x.log ++ y.log, y.result.map (b :: ·)⟩

def readAt (maxDepth : Nat) : (levels depth : Nat) → Text → Except Misstep (Logged Expression)
  | 0, _, _ => .ok (.fail (.tooDeep maxDepth))
  | levels + 1, depth, t => do
    match ← plan t with
    | .settled result => return ⟨[], result⟩
    | .unwrap remark inner =>
      let x ← readAt maxDepth levels (depth + 1) inner
      return x.after (.step depth remark)
    | .split remark op parts =>
      let x ← each (readAt maxDepth levels (depth + 1)) parts
      return (x.map (Expression.combine op)).after (.step depth remark)

def read (limits : Limits) (input : Text) : Except Misstep (Logged Expression) := do
  let bytes := byteSize input
  if limits.maxBytes < bytes then return .fail (.tooLong bytes limits.maxBytes)
  else
    let x ← readAt limits.maxDepth (limits.maxDepth + 1) 0 input
    return x.closed input

/-! ## No missteps -/

variable {piece family value t : Text}

/-- In a trimmed piece neither side of a sign is blank. -/
theorem exists_ofParts (trimmed : Trimmed piece) (parts : cut Assignment.sign piece = [family, value]) :
    ∃ a, Assignment.ofParts family value = .ok a := by
  have whole := text_of_sign parts
  have space : Blank [' '] := by decide
  have hf : trim family ≠ [] := by
    intro none
    have start : family ++ [' '] <+: piece := ⟨['=', ' '] ++ value, by simp [whole, Assignment.sign]⟩
    refine trimmed.not_blank_of_prefix start (by simp) ?_
    exact fun c hc => (List.mem_append.mp hc).elim (Plan.blank_of_trim_eq_nil none c) (space c)
  have hv : trim value ≠ [] := by
    intro none
    have stop : [' '] ++ value <:+ piece := ⟨family ++ [' ', '='], by simp [whole, Assignment.sign]⟩
    refine trimmed.not_blank_of_suffix stop (by simp) ?_
    exact fun c hc => (List.mem_append.mp hc).elim (space c) (Plan.blank_of_trim_eq_nil none c)
  exact ⟨_, by rw [Assignment.ofParts, dif_neg hf, dif_neg hv]⟩

theorem single_eq (trimmed : Trimmed piece) (balanced : Balanced piece) :
    single piece (spans piece) = .ok (Plan.single piece (Token.scan piece)) := by
  rw [single, group?_spans balanced, ok_bind, Plan.single]
  cases group? (Token.scan piece) with
  | some inner => rfl
  | none =>
      rcases parts : Text.cut Assignment.sign piece with _ | ⟨family, _ | ⟨value, _ | _⟩⟩
      · rfl
      · rfl
      · obtain ⟨a, made⟩ := exists_ofParts trimmed parts
        simp only [made]
        rfl
      · rfl

theorem layered_eq (balanced : Balanced piece) :
    layered piece (spans piece) = .ok (Plan.layered piece (Token.scan piece)) := by
  obtain ⟨⟨first, items⟩, found⟩ : ∃ s, segments (Token.scan piece) = s := ⟨_, rfl⟩
  have whole : piece = [] ++ first ++ items.flatMap fun s => s.1.separator ++ s.2 := by
    have text := text_of_segmentsAt 0 (Token.scan piece)
    rwa [Token.flatMap_text_scan, show segmentsAt 0 (Token.scan piece) = _ from found] at text
  have separated : separators 0 (spans piece) = .ok (joints 0 first items) := by
    rw [spans, separators_spansFrom (runsBare_scan piece) balanced.through_scan,
      show segmentsAt 0 (Token.scan piece) = _ from found]
  rw [layered, separated, ok_bind, Plan.layered, found]
  cases items with
  | nil =>
      simp only [joints, group?_spans balanced, ok_bind]
      cases group? (Token.scan piece) with
      | some inner => rfl
      | none => rfl
  | cons s others =>
      obtain ⟨op, second⟩ := s
      have parts := segments_joints whole
      have operator : operatorAt piece ⟨some (.operator op), first.byteSize,
          first.byteSize + op.separator.byteSize⟩ = .ok op :=
        operatorAt_of_eq (v := second ++ others.flatMap fun s => s.1.separator ++ s.2) (by simp [whole])
      have same : uniform piece op (joints (first ++ op.separator).byteSize second others) =
          .ok (others.all (·.1 = op)) := uniform_joints (by simp [whole])
      rw [byteSize_append] at same
      simp only [joints, byteSize_nil, Nat.zero_add] at parts ⊢
      have mixed : (others.any fun s => s.1 ≠ op) = !(others.all fun s => s.1 = op) := by
        simp only [ne_eq, decide_not, List.not_all_eq_any_not]
      simp only [operator, same, parts, mixed, ok_bind]
      cases others.all fun s => s.1 = op with
      | false => rfl
      | true =>
          simp only [if_true, Bool.not_true, Bool.false_eq_true, if_false, List.map_cons]
          split
          · rfl
          · rfl

theorem ofPiece_eq (trimmed : Trimmed piece) : ofPiece piece = .ok (Plan.ofPiece piece) := by
  have has (op : Operator) : (spans piece).any (·.mark? = some (.operator op)) =
      (Token.scan piece).contains (.mark (.operator op)) := any_spansFrom _ 0 _
  rw [ofPiece, imbalance?_spans, ok_bind, Plan.ofPiece]
  cases why : imbalance? (Token.scan piece) with
  | some why => rfl
  | none =>
      have balanced := imbalance?_scan_eq_none_iff.mp why
      simp only [has]
      cases (Token.scan piece).contains (.mark (.operator .and)) <;>
        cases (Token.scan piece).contains (.mark (.operator .or))
      · exact single_eq trimmed balanced
      · rfl
      · rfl
      · exact layered_eq balanced

/-- One step of reading, on any text at all. -/
theorem plan_eq (t : Text) : plan t = .ok (Plan.of t) := by
  simp only [plan, Plan.of]
  by_cases none : trim t = []
  · rw [if_pos none, if_pos none]
  · rw [if_neg none, if_neg none]
    split
    · exact ofPiece_eq (trimmed_trim none)
    · rfl

theorem each_eq {α β : Type} {f : α → Except Misstep (Logged β)} {g : α → Logged β}
    (h : ∀ a, f a = .ok (g a)) (as : List α) : each f as = .ok (Logged.each g as) := by
  induction as with
  | nil => rfl
  | cons a as ih =>
      rw [each, Logged.each, h a, ok_bind]
      cases (g a).result with
      | error fault => rfl
      | ok b => simp only [ih]; rfl

theorem readAt_eq (maxDepth levels depth : Nat) (t : Text) :
    readAt maxDepth levels depth t = .ok (Reading.readAt maxDepth levels depth t) := by
  induction levels generalizing depth t with
  | zero => rfl
  | succ levels ih =>
      rw [readAt, plan_eq, ok_bind, Reading.readAt]
      cases Plan.of t with
      | settled result => rfl
      | unwrap remark inner => simp only [ih]; rfl
      | split remark op parts => simp only [each_eq (ih (depth + 1))]; rfl

end Careful

/-! ## Faults that do not arise -/

/-- A fault of a text that is there, and not that one side of a sign is blank. -/
def Fault.Ordinary (fault : Fault) : Prop :=
  fault.kind ≠ .argument ∧ ∀ why piece, fault ≠ .emptyPart why piece

section Faults

variable {piece t : Text} {op : Operator} {fault : Fault}

theorem Plan.ordinary_of_single (trimmed : Trimmed piece)
    (h : single piece (Token.scan piece) = .settled (.error fault)) : fault.Ordinary := by
  unfold single at h
  cases grouped : group? (Token.scan piece) with
  | some inner => simp [grouped] at h
  | none =>
      simp only [grouped] at h
      split at h
      · next family value parts =>
          obtain ⟨a, made⟩ := Careful.exists_ofParts trimmed parts
          simp [made] at h
      · cases h
        simp [Fault.Ordinary, Fault.kind]

theorem Plan.ordinary_of_flat (h : flat op piece = .settled (.error fault)) : fault.Ordinary := by
  simp only [flat] at h
  split at h
  · cases h
    simp [Fault.Ordinary, Fault.kind]
  · cases h

theorem Plan.ordinary_of_layered (h : layered piece (Token.scan piece) = .settled (.error fault)) :
    fault.Ordinary := by
  unfold layered at h
  split at h
  · split at h
    · cases h
    · cases h
      simp [Fault.Ordinary, Fault.kind]
  · split at h
    · cases h
      simp [Fault.Ordinary, Fault.kind]
    · simp only at h
      split at h
      · cases h
        simp [Fault.Ordinary, Fault.kind]
      · cases h

theorem Plan.ordinary_of_settled (h : Plan.of t = .settled (.error fault)) : fault.Ordinary := by
  simp only [Plan.of] at h
  split at h
  · cases h
  · next filled =>
      have trimmed : Trimmed (trim t) := trimmed_trim filled
      split at h
      · simp only [ofPiece] at h
        split at h
        · cases h
          simp [Fault.Ordinary, Fault.kind]
        · split at h
          · exact ordinary_of_single trimmed h
          · exact ordinary_of_flat h
          · exact ordinary_of_flat h
          · exact ordinary_of_layered h
      · cases h
        simp [Fault.Ordinary, Fault.kind]

theorem ordinary_of_readAt {maxDepth levels depth : Nat}
    (h : (readAt maxDepth levels depth t).result = .error fault) : fault.Ordinary := by
  induction levels generalizing depth t with
  | zero =>
      cases h
      simp [Fault.Ordinary, Fault.kind]
  | succ levels ih =>
      cases plan : Plan.of t with
      | settled result =>
          rw [readAt_settled plan] at h
          exact Plan.ordinary_of_settled (h ▸ plan)
      | unwrap remark inner =>
          rw [readAt_unwrap plan] at h
          exact ih h
      | split remark op parts =>
          rw [readAt_split plan] at h
          cases parsed : (Logged.each (readAt maxDepth levels (depth + 1)) parts).result with
          | ok es => simp [parsed, Except.map] at h
          | error why =>
              obtain rfl : why = fault := by simpa [parsed, Except.map] using h
              obtain ⟨p, -, failed⟩ := error_of_each_result parsed
              exact ih failed

end Faults

/-- No reading, whatever the text and the limits, lowers a level below zero, slices a piece where it has
no slice, takes for an operator what does not read as that one, or finds one side of a sign blank. So
the fault of a text that is not read is never that there is no text, nor that a part of an assignment
is empty. -/
theorem careful_read (limits : Limits) (input : Text) :
    Careful.read limits input = .ok (read limits input) ∧
      ∀ fault, (read limits input).result = .error fault →
        fault.kind ≠ .argument ∧ ∀ why piece, fault ≠ .emptyPart why piece := by
  constructor
  · simp only [Careful.read, read, Careful.readAt_eq]
    split
    · rfl
    · rfl
  · intro fault failed
    by_cases fits : byteSize input ≤ limits.maxBytes
    · rw [read_result fits] at failed
      exact ordinary_of_readAt failed
    · rw [read, if_pos (Nat.lt_of_not_le fits)] at failed
      cases failed
      simp [Fault.kind]

end ChoiceLogic.Reading
