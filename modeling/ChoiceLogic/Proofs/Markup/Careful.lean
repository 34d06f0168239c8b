import ChoiceLogic.Proofs.Markup.Segments
import ChoiceLogic.Proofs.Text.Slice

/-! # Going by bytes

The tokens of a piece can be told by the bytes between which they stand. What is asked of a piece can
then be answered by counting levels down and up, slicing the piece and reading an operator back out of
it, none of which can always be done. Here each of these steps is taken only if it can be, and where it
cannot the answer is a misstep. With the parentheses balanced there are no missteps, and the answers are
those that the tokens give.
-/

namespace ChoiceLogic.Markup

/-- A token by its mark, if it is one, and the bytes between which it stands. -/
structure Span where
  mark? : Option Mark
  first : Nat
  last : Nat
  deriving Repr, DecidableEq

def Token.mark? : Token → Option Mark
  | .mark m => some m
  | .run _ => none

/-- The spans of tokens that stand one behind the other from a byte on. -/
def spansFrom (byte : Nat) : List Token → List Span
  | [] => []
  | t :: rest => ⟨t.mark?, byte, byte + t.text.byteSize⟩ :: spansFrom (byte + t.text.byteSize) rest

/-- The spans of the tokens of a piece. -/
def spans (piece : Text) : List Span :=
  spansFrom 0 (Token.scan piece)

/-- A step that cannot be taken. -/
inductive Misstep where
  /-- The level is lowered when it is zero. -/
  | belowZero
  /-- A piece is sliced where it has no slice. -/
  | noSlice (piece : Text) (first last : Nat)
  /-- The text of an operator does not read as that operator. -/
  | otherOperator (word : Text)
  /-- One side of a sign is blank, so that the two make no assignment. -/
  | noAssignment (why : Assignment.Fault)

/-! ## Steps -/

namespace Careful

@[simp] theorem ok_bind {α β : Type} (a : α) (f : α → Except Misstep β) :
    (Except.ok a >>= f) = f a := rfl

/-- The level behind a closing parenthesis. -/
def lower : Nat → Except Misstep Nat
  | 0 => .error .belowZero
  | level + 1 => .ok level

def slice (piece : Text) (first last : Nat) : Except Misstep Text :=
  match Text.slice? piece first last with
  | some s => .ok s
  | none => .error (.noSlice piece first last)

/-- Reads the text of a span as an operator, which has to be the one that the span is marked as. -/
def operatorAt (piece : Text) (s : Span) : Except Misstep Operator := do
  let word ← slice piece s.first s.last
  match Operator.ofWord word with
  | .ok op => if s.mark? = some (.operator op) then .ok op else .error (.otherOperator word)
  | .error _ => .error (.otherOperator word)

/-! ## Questions -/

/-- The byte of the first closing parenthesis that is met at level zero. -/
def closingFirst? (level : Nat) : List Span → Except Misstep (Option Nat)
  | [] => .ok none
  | s :: rest =>
    match s.mark? with
    | some .opening => closingFirst? (level + 1) rest
    | some .closing =>
      if level = 0 then .ok (some s.first)
      else do
        let level ← lower level
        closingFirst? level rest
    | _ => closingFirst? level rest

def imbalance? (spans : List Span) : Except Misstep (Option Imbalance) := do
  let openings := spans.countP (·.mark? = some .opening)
  let closings := spans.countP (·.mark? = some .closing)
  if closings < openings then return some .moreOpening
  else if openings < closings then return some .moreClosing
  else
    let byte? ← closingFirst? 0 spans
    return byte?.map .closingFirst

/-- No span but the last closes the last pair that is open. -/
def closesLast (level : Nat) : List Span → Except Misstep Bool
  | [] => .ok true
  | s :: rest =>
    match s.mark? with
    | some .opening => closesLast (level + 1) rest
    | some .closing => do
      let level ← lower level
      if level = 0 ∧ rest ≠ [] then return false
      else closesLast level rest
    | _ => closesLast level rest

/-- The text inside the pair of parentheses that encloses the piece. -/
def group? (piece : Text) (spans : List Span) : Except Misstep (Option Text) := do
  match spans.head?, spans.getLast? with
  | some first, some last =>
    if first.mark? = some .opening ∧ last.mark? = some .closing ∧ last.last = piece.byteSize then
      if ← closesLast 0 spans then
        let inner ← slice piece first.last last.first
        return some inner
      else return none
    else return none
  | _, _ => return none

/-- The operators at level zero. -/
def separators (level : Nat) : List Span → Except Misstep (List Span)
  | [] => .ok []
  | s :: rest =>
    match s.mark? with
    | some .opening => separators (level + 1) rest
    | some .closing => do
      let level ← lower level
      separators level rest
    | some (.operator _) => do
      let others ← separators level rest
      return if level = 0 then s :: others else others
    | none => separators level rest

/-- All of the separators are the same operator. -/
def uniform (piece : Text) (op : Operator) : List Span → Except Misstep Bool
  | [] => .ok true
  | s :: rest => do
    let other ← operatorAt piece s
    if other = op then uniform piece op rest else return false

/-- The slices of a piece from a byte on that stand between separators. -/
def segments (piece : Text) (start : Nat) : List Span → Except Misstep (List Text)
  | [] => do
    let segment ← slice piece start piece.byteSize
    return [segment]
  | s :: rest => do
    let segment ← slice piece start s.first
    let others ← segments piece s.last rest
    return segment :: others

/-! ## Answers -/

section Answers

variable {level behind byte : Nat} {piece u v w : Text} {op : Operator} {ts : List Token}

theorem slice_of_eq {first last : Nat} (whole : piece = u ++ w ++ v) (start : u.byteSize = first)
    (stop : (u ++ w).byteSize = last) : slice piece first last = .ok w := by
  rw [slice, Text.slice?_eq_some_iff.mpr ⟨u, v, whole, start, stop⟩]

theorem operatorAt_of_eq (whole : piece = u ++ op.separator ++ v) :
    operatorAt piece ⟨some (.operator op), u.byteSize, u.byteSize + op.separator.byteSize⟩ = .ok op := by
  have word := slice_of_eq whole rfl (Text.byteSize_append u op.separator)
  simp only [operatorAt, word, ok_bind, Operator.ofWord_separator, if_true]

theorem closingFirst?_spansFrom (level byte : Nat) (ts : List Token) :
    closingFirst? level (spansFrom byte ts) = .ok (Markup.closingFirst? level byte ts) := by
  induction ts generalizing level byte with
  | nil => rfl
  | cons t ts ih =>
      rw [spansFrom, closingFirst?, Markup.closingFirst?]
      cases t with
      | run r => simpa [Token.mark?, Token.levelAfter] using ih level _
      | mark m =>
          cases m with
          | operator op => simpa [Token.mark?, Token.levelAfter] using ih level _
          | opening => simpa [Token.mark?, Token.levelAfter] using ih (level + 1) _
          | closing =>
              cases level with
              | zero => rfl
              | succ level => simpa [Token.mark?, Token.levelAfter, lower] using ih level _

theorem countP_spansFrom (m : Mark) (byte : Nat) (ts : List Token) :
    (spansFrom byte ts).countP (·.mark? = some m) = ts.count (.mark m) := by
  induction ts generalizing byte with
  | nil => rfl
  | cons t ts ih =>
      rw [spansFrom, List.countP_cons, List.count_cons, ih]
      cases t <;> simp [Token.mark?]

theorem any_spansFrom (m : Mark) (byte : Nat) (ts : List Token) :
    (spansFrom byte ts).any (·.mark? = some m) = ts.contains (.mark m) := by
  induction ts generalizing byte with
  | nil => rfl
  | cons t ts ih =>
      rw [spansFrom, List.any_cons, List.contains_cons, ih]
      cases t <;> simp [Token.mark?, eq_comm, Bool.beq_eq_decide_eq]

theorem imbalance?_spans (piece : Text) :
    imbalance? (spans piece) = .ok (Markup.imbalance? (Token.scan piece)) := by
  have early := closingFirst?_spansFrom 0 0 (Token.scan piece)
  simp only [imbalance?, Markup.imbalance?, spans, countP_spansFrom, early]
  split
  · rfl
  · split <;> rfl

/-- Where the level ends at zero, the last pair that is open is closed by the last token or before. -/
theorem closesLast_spansFrom (bare : RunsBare ts)
    (through : levelThrough? (level + 1) (ts.flatMap Token.text) = some 0) :
    closesLast (level + 1) (spansFrom byte ts) = .ok (enclosed? (level + 1) ts).isSome := by
  induction ts generalizing level byte with
  | nil => cases through
  | cons t ts ih =>
      rw [levelThrough?_tokens_cons bare, if_neg (by simp)] at through
      have later (level : Nat) (h : levelThrough? (level + 1) (ts.flatMap Token.text) = some 0) :
          closesLast (level + 1) (spansFrom (byte + t.text.byteSize) ts) =
            .ok (enclosed? (level + 1) ts).isSome := ih bare.tail h
      rw [spansFrom, closesLast, enclosed?]
      cases t with
      | run r => simpa [Token.mark?, Token.levelAfter] using later level through
      | mark m =>
          cases m with
          | operator op => simpa [Token.mark?, Token.levelAfter] using later level through
          | opening => simpa [Token.mark?, Token.levelAfter] using later (level + 1) through
          | closing =>
              cases level with
              | succ level => simpa [Token.mark?, Token.levelAfter, lower] using later level through
              | zero =>
                  cases ts with
                  | nil => rfl
                  | cons => rfl

theorem spansFrom_append (byte : Nat) (ts us : List Token) :
    spansFrom byte (ts ++ us) =
      spansFrom byte ts ++ spansFrom (byte + Text.byteSize (ts.flatMap Token.text)) us := by
  induction ts generalizing byte with
  | nil => rfl
  | cons t ts ih =>
      rw [List.cons_append, spansFrom, spansFrom, ih, List.flatMap_cons, Text.byteSize_append,
        Nat.add_assoc, List.cons_append]

/-- A pair of parentheses stands one byte before and one byte behind what is between them. -/
theorem spans_enclosed (inner : Text) :
    spans ('(' :: (inner ++ [')'])) = ⟨some .opening, 0, 1⟩ :: spansFrom 1 (Token.scan inner) ++
      [⟨some .closing, 1 + inner.byteSize, 1 + inner.byteSize + 1⟩] := by
  rw [spans, Token.scan_enclosed, spansFrom, spansFrom_append, Token.flatMap_text_scan]
  rfl

theorem closesLast_spans {rest : List Token} (balanced : Balanced piece)
    (tokens : Token.scan piece = .mark .opening :: rest) :
    closesLast 0 (spans piece) = .ok (Markup.group? (Token.scan piece)).isSome := by
  have bare := runsBare_scan piece
  have through := balanced.through_scan
  rw [tokens] at bare through
  rw [levelThrough?_tokens_cons bare, if_neg (by simp)] at through
  rw [spans, tokens]
  exact closesLast_spansFrom bare.tail through

theorem group?_spans (balanced : Balanced piece) :
    group? piece (spans piece) = .ok (Markup.group? (Token.scan piece)) := by
  cases grouped : Markup.group? (Token.scan piece) with
  | some inner =>
      obtain rfl := eq_of_group? grouped
      have closes := closesLast_spans balanced (Token.scan_enclosed inner)
      have size : Text.byteSize ('(' :: (inner ++ [')'])) = 1 + inner.byteSize + 1 := by
        rw [Text.byteSize_cons, Text.byteSize_append]
        rfl
      have text : slice ('(' :: (inner ++ [')'])) 1 (1 + inner.byteSize) = .ok inner :=
        slice_of_eq (u := ['(']) (v := [')']) rfl rfl rfl
      rw [grouped, spans_enclosed] at closes
      rw [group?, spans_enclosed, List.getLast?_concat, size]
      simp only [List.cons_append] at closes ⊢
      simp only [List.head?_cons, closes, text, and_self, ok_bind, if_true, Option.isSome_some]
      rfl
  | none =>
      unfold group?
      split
      · next first last head _ =>
          split
          · next ends =>
              -- The first token opens a pair, and the last does not close it.
              obtain ⟨rest, tokens⟩ : ∃ rest, Token.scan piece = .mark .opening :: rest := by
                cases tokens : Token.scan piece with
                | nil => simp [spans, tokens, spansFrom] at head
                | cons t rest =>
                    obtain rfl : _ = first := by simpa [spans, tokens, spansFrom] using head
                    cases t with
                    | run r => simp [Token.mark?] at ends
                    | mark m =>
                        obtain rfl : m = .opening := by simpa [Token.mark?] using ends.1
                        exact ⟨rest, rfl⟩
              rw [closesLast_spans balanced tokens, grouped]
              rfl
          · rfl
      · rfl

/-- The spans of the operators between segments, of which the first starts at a byte. -/
def joints (byte : Nat) (segment : Text) : List (Operator × Text) → List Span
  | [] => []
  | (op, next) :: others =>
    let first := byte + segment.byteSize
    ⟨some (.operator op), first, first + op.separator.byteSize⟩ ::
      joints (first + op.separator.byteSize) next others

theorem joints_append (byte : Nat) (u v : Text) (others : List (Operator × Text)) :
    joints byte (u ++ v) others = joints (byte + u.byteSize) v others := by
  cases others with
  | nil => rfl
  | cons => simp only [joints, Text.byteSize_append, Nat.add_assoc]

theorem separators_spansFrom (bare : RunsBare ts)
    (through : levelThrough? level (ts.flatMap Token.text) = some behind) :
    separators level (spansFrom byte ts) =
      .ok (joints byte (segmentsAt level ts).1 (segmentsAt level ts).2) := by
  induction ts generalizing level byte with
  | nil => rfl
  | cons t ts ih =>
      rw [levelThrough?_tokens_cons bare] at through
      split at through
      · cases through
      · next early =>
          have later : separators (t.levelAfter level) (spansFrom (byte + t.text.byteSize) ts) = _ :=
            ih bare.tail through
          rw [spansFrom, separators]
          cases t with
          | run r =>
              rw [segmentsAt_cons (by simp), joints_append]
              exact later
          | mark m =>
              cases m with
              | opening =>
                  rw [segmentsAt_cons (by simp), joints_append]
                  exact later
              | closing =>
                  rw [segmentsAt_cons (by simp), joints_append]
                  cases level with
                  | zero => exact absurd ⟨rfl, rfl⟩ early
                  | succ level => exact later
              | operator op =>
                  change separators level _ = _ at later
                  simp only [Token.mark?, later, ok_bind]
                  cases level with
                  | zero => rfl
                  | succ level =>
                      rw [segmentsAt_cons (by simp), joints_append]
                      rfl

/-- Where a pair is closed that is not open, the level would have to fall below zero. -/
example : separators 0 (spans [')']) = .error .belowZero := rfl

/-- The separators read back as the operators between the segments. -/
theorem uniform_joints {segment : Text} {others : List (Operator × Text)}
    (whole : piece = u ++ segment ++ others.flatMap fun s => s.1.separator ++ s.2) :
    uniform piece op (joints u.byteSize segment others) = .ok (others.all (·.1 = op)) := by
  induction others generalizing u segment with
  | nil => rfl
  | cons s others ih =>
      obtain ⟨o, next⟩ := s
      have found : operatorAt piece ⟨some (.operator o), (u ++ segment).byteSize,
          (u ++ segment).byteSize + o.separator.byteSize⟩ = .ok o :=
        operatorAt_of_eq (v := next ++ others.flatMap fun s => s.1.separator ++ s.2) (by simp [whole])
      have later : uniform piece op (joints (u ++ segment ++ o.separator).byteSize next others) = _ :=
        ih (by simp [whole])
      simp only [Text.byteSize_append] at found later
      rw [joints, uniform, found, ok_bind]
      by_cases same : o = op
      · simpa [same] using later
      · simp [same]; rfl

/-- Slicing between the separators gives the segments. -/
theorem segments_joints {segment : Text} {others : List (Operator × Text)}
    (whole : piece = u ++ segment ++ others.flatMap fun s => s.1.separator ++ s.2) :
    segments piece u.byteSize (joints u.byteSize segment others) =
      .ok (segment :: others.map (·.2)) := by
  induction others generalizing u segment with
  | nil =>
      have last : slice piece u.byteSize piece.byteSize = .ok segment :=
        slice_of_eq (v := []) (by simpa using whole) rfl (by simp [whole])
      rw [joints, segments, last]
      rfl
  | cons s others ih =>
      obtain ⟨o, next⟩ := s
      have first : slice piece u.byteSize (u.byteSize + segment.byteSize) = .ok segment :=
        slice_of_eq whole rfl (Text.byteSize_append u segment)
      have later : segments piece (u ++ segment ++ o.separator).byteSize
          (joints (u ++ segment ++ o.separator).byteSize next others) = _ := ih (by simp [whole])
      simp only [Text.byteSize_append] at later
      rw [joints, segments, first, ok_bind, later]
      rfl

end Answers

end Careful

end ChoiceLogic.Markup
