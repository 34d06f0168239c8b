import ChoiceLogic.Proofs.Markup.Found
import ChoiceLogic.Proofs.Markup.Segments

/-! # Pairs around a token

The pairs of parentheses around a token are those that are open in front of it, told apart by the
places of their opening parentheses. Two tokens of a balanced text stand inside the same pairs only if
what stands between them is balanced. Two such operators are still found, side by side, in what is left
of the text without the pair around it, without the blanks at its ends, or without its other segments.
-/

namespace ChoiceLogic.Markup

open Text

/-- The opening parentheses that are open behind a token, by their places, the innermost first. -/
def openAfter (place : Nat) (before : List Nat) : Token → List Nat
  | .mark .opening => place :: before
  | .mark .closing => before.tail
  | _ => before

/-- The opening parentheses that are open behind some tokens, the first of which is at this place. -/
def openBehind : (place : Nat) → (before : List Nat) → List Token → List Nat
  | _, before, [] => before
  | place, before, t :: rest => openBehind (place + 1) (openAfter place before t) rest

/-- The pairs of parentheses around the token at a place. -/
def pairsAround (ts : List Token) (place : Nat) : List Nat :=
  openBehind 0 [] (ts.take place)

/-- The last character that is not blank is an opening parenthesis. -/
def BehindOpening (u : Text) : Prop :=
  (trimEnd u).getLast? = some '('

/-- The first character that is not blank is a closing parenthesis. -/
def BeforeClosing (v : Text) : Prop :=
  (trimStart v).head? = some ')'

instance (u : Text) : Decidable (BehindOpening u) :=
  inferInstanceAs (Decidable (_ = _))

instance (v : Text) : Decidable (BeforeClosing v) :=
  inferInstanceAs (Decidable (_ = _))

/-- Nothing but blanks stands between the token at a place and a parenthesis of the pair around it. -/
def AtBorder (ts : List Token) (place : Nat) : Prop :=
  BehindOpening ((ts.take place).flatMap Token.text) ∨
    BeforeClosing ((ts.drop (place + 1)).flatMap Token.text)

instance (ts : List Token) (place : Nat) : Decidable (AtBorder ts place) :=
  inferInstanceAs (Decidable (_ ∨ _))

section Borders

variable {u v : Text}

theorem behindOpening_iff_reverse : BehindOpening u ↔ (trimStart u.reverse).head? = some '(' := by
  rw [BehindOpening, trimEnd_eq_reverse, List.getLast?_reverse]

theorem head?_trimStart_append {c : Char} (h : (trimStart v).head? = some c) (w : Text) :
    (trimStart (v ++ w)).head? = some c := by
  obtain ⟨rest, start⟩ := List.head?_eq_some_iff.mp h
  unfold trimStart at start ⊢
  rw [List.dropWhile_append, start]
  rfl

theorem BeforeClosing.append (h : BeforeClosing v) (w : Text) : BeforeClosing (v ++ w) :=
  head?_trimStart_append h w

theorem BehindOpening.append (h : BehindOpening u) (w : Text) : BehindOpening (w ++ u) := by
  rw [behindOpening_iff_reverse] at h ⊢
  rw [List.reverse_append]
  exact head?_trimStart_append h w.reverse

theorem beforeClosing_of_blank (h : Blank v) : BeforeClosing (v ++ [')']) := by
  rw [BeforeClosing, trimStart, List.dropWhile_append_of_pos h]
  rfl

theorem behindOpening_of_blank (h : Blank u) : BehindOpening ('(' :: u) := by
  have reversed : Blank u.reverse := fun c hc => h c (List.mem_reverse.mp hc)
  rw [behindOpening_iff_reverse, List.reverse_cons, trimStart, List.dropWhile_append_of_pos reversed]
  rfl

end Borders

section Open

variable {place behind : Nat} {before : List Nat} {ts : List Token}

theorem openBehind_append (place : Nat) (before : List Nat) (ts us : List Token) :
    openBehind place before (ts ++ us) =
      openBehind (place + ts.length) (openBehind place before ts) us := by
  induction ts generalizing place before with
  | nil => rfl
  | cons t ts ih =>
      rw [List.cons_append, openBehind, openBehind, ih, List.length_cons, Nat.add_right_comm,
        Nat.add_assoc]

/-- There are as many open pairs as the level says. -/
theorem length_openAfter {t : Token} (early : ¬ (t = .mark .closing ∧ before.length = 0)) :
    (openAfter place before t).length = t.levelAfter before.length := by
  cases t with
  | run r => rfl
  | mark m => cases m <;> simp [openAfter, Token.levelAfter]

theorem length_openBehind (place : Nat) (before : List Nat) (bare : RunsBare ts)
    (through : levelThrough? before.length (ts.flatMap Token.text) = some behind) :
    (openBehind place before ts).length = behind := by
  induction ts generalizing place before with
  | nil => exact Option.some.inj through
  | cons t ts ih =>
      rw [levelThrough?_tokens_cons bare] at through
      split at through
      · cases through
      · next early =>
          rw [← length_openAfter early] at through
          exact ih _ _ bare.tail through

theorem lt_of_mem_openAfter {t : Token} (earlier : ∀ n ∈ before, n < place) :
    ∀ n ∈ openAfter place before t, n < place + 1 := by
  have later : ∀ n ∈ before, n < place + 1 := fun n hn => Nat.lt_succ_of_lt (earlier n hn)
  cases t with
  | run r => exact later
  | mark m =>
      cases m with
      | operator op => exact later
      | opening => simpa [openAfter] using later
      | closing => exact fun n hn => later n (List.mem_of_mem_tail hn)

/-- The places are those of tokens that were passed. -/
theorem lt_of_mem_openBehind (ts : List Token) (earlier : ∀ n ∈ before, n < place) :
    ∀ n ∈ openBehind place before ts, n < place + ts.length := by
  induction ts generalizing place before with
  | nil => exact earlier
  | cons t ts ih =>
      rw [List.length_cons, Nat.add_comm ts.length, ← Nat.add_assoc]
      exact ih (lt_of_mem_openAfter earlier)

/-- What is open behind some tokens was opened by them or was open before. -/
theorem exists_openBehind_eq (place : Nat) (before : List Nat) (ts : List Token) :
    ∃ new closed, openBehind place before ts = new ++ before.drop closed ∧ ∀ n ∈ new, place ≤ n := by
  induction ts generalizing place before with
  | nil => exact ⟨[], 0, rfl, by simp⟩
  | cons t ts ih =>
      obtain ⟨new, closed, behind, later⟩ := ih (place + 1) (openAfter place before t)
      have late : ∀ n ∈ new, place ≤ n := fun n hn => Nat.le_of_succ_le (later n hn)
      rw [openBehind, behind]
      cases t with
      | run r => exact ⟨new, closed, rfl, late⟩
      | mark m =>
          cases m with
          | operator op => exact ⟨new, closed, rfl, late⟩
          | closing => exact ⟨new, closed + 1, by simp [openAfter], late⟩
          | opening =>
              cases closed with
              | zero =>
                  refine ⟨new ++ [place], 0, by simp [openAfter], ?_⟩
                  simpa [or_imp, forall_and] using late
              | succ closed => exact ⟨new, closed, by simp [openAfter], late⟩

/-- Tokens behind which the same pairs are open as before have closed what they opened, and nothing
else. -/
theorem levelThrough?_of_openBehind_eq (new : List Nat) (bare : RunsBare ts)
    (through : levelThrough? (new ++ before).length (ts.flatMap Token.text) = some behind)
    (earlier : ∀ n ∈ before, n < place) (same : openBehind place (new ++ before) ts = before) :
    levelThrough? new.length (ts.flatMap Token.text) = some 0 := by
  induction ts generalizing place new with
  | nil =>
      obtain rfl : new = [] := by simpa [openBehind] using same
      rfl
  | cons t ts ih =>
      rw [levelThrough?_tokens_cons bare] at through ⊢
      split at through
      · cases through
      · next early =>
          have earlier' : ∀ n ∈ before, n < place + 1 := fun n hn => Nat.lt_succ_of_lt (earlier n hn)
          cases t with
          | run r => exact ih new bare.tail through earlier' same
          | mark m =>
              cases m with
              | operator op => exact ih new bare.tail through earlier' same
              | opening =>
                  have later := ih (place :: new) bare.tail (by simpa [Token.levelAfter] using through)
                    earlier' same
                  simpa [Token.levelAfter] using later
              | closing =>
                  cases new with
                  | cons n new =>
                      have later := ih new bare.tail (by simpa [Token.levelAfter] using through)
                        earlier' same
                      simpa [Token.levelAfter] using later
                  | nil =>
                      -- A pair from before was closed, and no later one can stand in its place.
                      obtain ⟨a, rest, rfl⟩ : ∃ a rest, before = a :: rest := by
                        refine List.exists_cons_of_ne_nil fun none => early ⟨rfl, ?_⟩
                        simp [none]
                      obtain ⟨new, closed, behind, later⟩ := exists_openBehind_eq (place + 1) rest ts
                      have again : new ++ rest.drop closed = a :: rest := behind.symm.trans same
                      cases new with
                      | nil =>
                          have sum := congrArg List.length again
                          simp only [List.nil_append, List.length_drop, List.length_cons] at sum
                          omega
                      | cons n new =>
                          obtain ⟨rfl, -⟩ := List.cons.inj again
                          have old := earlier n (.head rest)
                          have young := later n (.head new)
                          omega

end Open

/-! ## Two operators in a text -/

/-- Two operators are found in a text, which is divided into the texts before them, between them and
behind them. -/
structure BothFound (t u : Text) (o : Operator) (m : Text) (p : Operator) (v : Text) : Prop where
  whole : t = u ++ (o.separator ++ (m ++ (p.separator ++ v)))
  first : Found t (.operator o) (m ++ (p.separator ++ v))
  second : Found (m ++ (p.separator ++ v)) (.operator p) v

section BothFound

variable {t u m v w inner : Text} {o p : Operator} {i j : Nat}

theorem eq_take_append_drop {α : Type} {l : List α} {a : α} (h : l[i]? = some a) :
    l = l.take i ++ a :: l.drop (i + 1) := by
  obtain ⟨lt, rfl⟩ := List.getElem?_eq_some_iff.mp h
  rw [← List.drop_eq_getElem_cons lt, List.take_append_drop]

/-- Between two operators inside the same pairs, the text is balanced. -/
theorem exists_bothFound (balanced : Balanced t) (before : i < j)
    (hi : (Token.scan t)[i]? = some (.mark (.operator o)))
    (hj : (Token.scan t)[j]? = some (.mark (.operator p)))
    (same : pairsAround (Token.scan t) i = pairsAround (Token.scan t) j) :
    ∃ u m v, BothFound t u o m p v ∧ Balanced m ∧ (Token.scan t).take i = Token.scan u ∧
      (Token.scan t).drop (j + 1) = Token.scan v := by
  obtain ⟨k, rfl⟩ : ∃ k, j = i + 1 + k := ⟨j - (i + 1), by omega⟩
  have tokens := eq_take_append_drop hi
  obtain ⟨u, w, whole, left, right, first⟩ := exists_found_of_scan_eq tokens
  rw [← List.getElem?_drop, right] at hj
  obtain ⟨m, v, rfl, between, behind, second⟩ := exists_found_of_scan_eq (eq_take_append_drop hj)
  refine ⟨u, m, v, ⟨whole, first, second⟩, ?_, left, ?_⟩
  · have passed : (Token.scan t).take (i + 1 + k) =
        Token.scan u ++ .mark (.operator o) :: Token.scan m := by
      rw [List.take_add, List.take_add_one, hi, right, left, between, List.append_assoc]
      rfl
    let outside := openBehind 0 [] (Token.scan u)
    have again : openBehind ((Token.scan u).length + 1) outside (Token.scan m) = outside := by
      rw [pairsAround, pairsAround, passed, left, openBehind_append, Nat.zero_add] at same
      exact same.symm
    rw [Balanced, whole, levelThrough?_append] at balanced
    obtain ⟨level, before, balanced⟩ := Option.bind_eq_some_iff.mp balanced
    rw [levelThrough?_append, show levelThrough? level (Mark.operator o).text = some level from
      levelThrough?_of_bare (bare_separator o) level, Option.bind_some, levelThrough?_append] at balanced
    obtain ⟨next, through, -⟩ := Option.bind_eq_some_iff.mp balanced
    have height : outside.length = level := by
      rw [← Token.flatMap_text_scan u] at before
      exact length_openBehind 0 [] (runsBare_scan u) before
    have earlier : ∀ n ∈ outside, n < (Token.scan u).length + 1 := by
      intro n hn
      have := lt_of_mem_openBehind (Token.scan u) (by simp) n hn
      omega
    rw [← Token.flatMap_text_scan m, ← height] at through
    have closed := levelThrough?_of_openBehind_eq [] (runsBare_scan m) through earlier again
    rwa [Token.flatMap_text_scan] at closed
  · rw [← behind, ← right, List.drop_drop]
    congr 1

/-- What is behind the operators can be replaced. -/
theorem BothFound.of_tail (h : BothFound t u o m p v) (w : Text) :
    BothFound (u ++ (o.separator ++ (m ++ (p.separator ++ w)))) u o m p w := by
  have first := h.first
  rw [h.whole] at first
  exact ⟨rfl, first.of_tail _, h.second.of_tail w⟩

theorem BothFound.inside_group (h : BothFound ('(' :: (inner ++ [')'])) u o m p v) :
    ∃ u' v', u = '(' :: u' ∧ v = v' ++ [')'] ∧ BothFound inner u' o m p v' := by
  have whole := h.whole
  have head : ∃ u', u = '(' :: u' := by
    cases u with
    | nil => simp [o.separator_eq] at whole
    | cons c u => exact ⟨u, by rw [(List.cons.inj whole).1]⟩
  obtain ⟨u', rfl⟩ := head
  have last : ∃ v', v = v' ++ [')'] := by
    rcases List.eq_nil_or_concat v with rfl | ⟨v', c, rfl⟩
    · have ends : ('(' :: inner) ++ [')'] =
          '(' :: u' ++ (o.separator ++ (m ++ ' ' :: p.name)) ++ [' '] := by
        simpa [p.separator_eq] using whole
      cases List.append_inj_right' ends rfl
    · have ends : ('(' :: inner) ++ [')'] =
          '(' :: u' ++ (o.separator ++ (m ++ (p.separator ++ v'))) ++ [c] := by
        simpa only [List.concat_eq_append, List.append_assoc, List.cons_append] using whole
      cases List.append_inj_right' ends rfl
      exact ⟨v', List.concat_eq_append⟩
  obtain ⟨v', rfl⟩ := last
  refine ⟨u', v', rfl, rfl, ?_⟩
  have shorter := h.of_tail v'
  have same : inner = u' ++ (o.separator ++ (m ++ (p.separator ++ v'))) := by
    have ends : inner ++ [')'] = u' ++ (o.separator ++ (m ++ (p.separator ++ v'))) ++ [')'] := by
      simpa using whole
    exact List.append_cancel_right ends
  rw [List.cons_append, ← same] at shorter
  exact ⟨same, (found_text_append_iff (n := .opening)).mp shorter.first |>.resolve_left nofun,
    shorter.second⟩

/-- The text does not start with the word of an operator alone in front of an operator. -/
def Uncarried (t : Text) : Prop :=
  ∀ (n op : Operator) (z : Text), t ≠ n.name ++ op.separator ++ z

theorem BothFound.inside_trim (h : BothFound t u o m p v) (before : ¬ Blank u) (behind : ¬ Blank v)
    (alone : Uncarried (trim t)) :
    ∃ g u' v' k, u = g ++ u' ∧ v = v' ++ k ∧ BothFound (trim t) u' o m p v' := by
  obtain ⟨g, k, hg, hk, padded⟩ := padded_trim t
  -- The blanks behind are behind the second operator, where they can be left out.
  obtain ⟨v', rfl, start⟩ : ∃ v', v = v' ++ k ∧
      g ++ trim t = u ++ (o.separator ++ (m ++ (p.separator ++ v'))) := by
    have ends : (g ++ trim t) ++ k = (u ++ (o.separator ++ (m ++ p.separator))) ++ v := by
      simpa only [List.append_assoc] using padded.symm.trans h.whole
    rcases List.append_eq_append_iff.mp ends with ⟨x, -, rfl⟩ | ⟨v', start, rfl⟩
    · exact absurd (fun c hc => hk c (List.mem_append_right x hc)) behind
    · exact ⟨v', rfl, by simpa only [List.append_assoc] using start⟩
  obtain ⟨u', rfl, inner⟩ : ∃ u', u = g ++ u' ∧
      trim t = u' ++ (o.separator ++ (m ++ (p.separator ++ v'))) := by
    rcases List.append_eq_append_iff.mp start with ⟨u', whole, inner⟩ | ⟨x, rfl, -⟩
    · exact ⟨u', whole, inner⟩
    · exact absurd (fun c hc => hg c (List.mem_append_left x hc)) before
  have shorter := h.of_tail v'
  rw [← start] at shorter
  refine ⟨g, u', v', k, rfl, rfl, inner, ?_, shorter.second⟩
  rcases shorter.first.of_blank_append hg with found | ⟨n, rest, word, found⟩
  · exact found
  · rcases found with ⟨rfl, rfl⟩ | found
    · have sum := congrArg List.length (word.symm.trans inner)
      simp only [List.length_append, List.length_cons, n.separator_eq] at sum
      omega
    · rw [word]
      refine found.word_append fun q shared => ?_
      obtain ⟨z, space⟩ := shared
      exact alone n q z (by rw [word, ← space, List.append_assoc])

end BothFound

/-! ## Two operators in a segment -/

section Segments

variable {level behind : Nat} {t u m v w first second : Text} {op o p : Operator} {ts us : List Token}
  {more items : List (Operator × Text)}

/-- Where all pairs are closed, an operator ends a segment. -/
theorem operator_mem_segmentsAt (bare : RunsBare ts)
    (through : levelThrough? level (ts.flatMap Token.text) = some 0) :
    op ∈ (segmentsAt level (ts ++ .mark (.operator op) :: us)).2.map (·.1) := by
  induction ts generalizing level with
  | nil =>
      obtain rfl : level = 0 := Option.some.inj through
      exact .head _
  | cons t ts ih =>
      rw [levelThrough?_tokens_cons bare] at through
      split at through
      · cases through
      · have later := ih bare.tail through
        rw [List.cons_append]
        by_cases cut : level = 0 ∧ ∃ o, t = .mark (.operator o)
        · obtain ⟨rfl, o, rfl⟩ := cut
          exact .tail _ later
        · rw [segmentsAt_cons fun zero o same => cut ⟨zero, o, same⟩]
          exact later

theorem Found.operator_mem_segments (h : Found t (.operator o) w) (whole : t = u ++ (o.separator ++ w))
    (balanced : Balanced u) : o ∈ (segments (Token.scan t)).2.map (·.1) := by
  obtain ⟨x, divided, tokens⟩ := found_iff.mp h
  obtain rfl : u = x := List.append_cancel_right (whole.symm.trans divided)
  rw [tokens]
  exact operator_mem_segmentsAt (runsBare_scan u) balanced.through_scan

/-- The first segment is what is before the operator that ends it, and no operator ends it earlier. -/
theorem exists_of_segmentsAt (bare : RunsBare ts)
    (through : levelThrough? level (ts.flatMap Token.text) = some behind)
    (h : segmentsAt level ts = (first, (op, second) :: more)) :
    ∃ us ws, ts = us ++ .mark (.operator op) :: ws ∧ us.flatMap Token.text = first ∧
      (segmentsAt level us).2 = [] ∧ levelThrough? level first = some 0 ∧
      segmentsAt 0 ws = (second, more) := by
  induction ts generalizing level first with
  | nil => cases h
  | cons t ts ih =>
      by_cases cut : level = 0 ∧ ∃ o, t = .mark (.operator o)
      · obtain ⟨rfl, o, rfl⟩ := cut
        cases h
        exact ⟨[], ts, rfl, rfl, rfl, rfl, rfl⟩
      · have other : level = 0 → ∀ o, t ≠ .mark (.operator o) := fun zero o same => cut ⟨zero, o, same⟩
        rw [segmentsAt_cons other] at h
        obtain ⟨rfl, tail⟩ := Prod.mk.inj h
        rw [levelThrough?_tokens_cons bare] at through
        split at through
        · cases through
        · next early =>
            obtain ⟨us, ws, rfl, text, uncut, closed, rest⟩ := ih bare.tail through (Prod.ext rfl tail)
            refine ⟨t :: us, ws, rfl, by rw [List.flatMap_cons, text], ?_, ?_, rest⟩
            · rw [segmentsAt_cons other]
              exact uncut
            · rw [levelThrough?_append, levelThrough?_token bare.head, if_neg early]
              exact closed

theorem exists_of_segments (balanced : Balanced t)
    (h : segments (Token.scan t) = (first, (op, second) :: more)) :
    ∃ w, t = first ++ (op.separator ++ w) ∧ Found t (.operator op) w ∧ Closed first ∧ Balanced first ∧
      Balanced w ∧ segments (Token.scan w) = (second, more) := by
  obtain ⟨us, ws, tokens, text, uncut, closed, rest⟩ :=
    exists_of_segmentsAt (runsBare_scan t) balanced.through_scan h
  obtain ⟨x, w, whole, rfl, rfl, found⟩ := exists_found_of_scan_eq tokens
  obtain rfl : x = first := (Token.flatMap_text_scan x).symm.trans text
  refine ⟨w, whole, found, uncut, closed, ?_, rest⟩
  rw [Balanced, whole, levelThrough?_append, closed, Option.bind_some, levelThrough?_append] at balanced
  rwa [show levelThrough? 0 (Mark.operator op).text = some 0 from balanced_separator op]
    at balanced

/-- Two operators that stand inside the same pairs stand in the same segment. -/
theorem BothFound.inside_segment (h : BothFound t u o m p v) (between : Balanced m) (deep : ¬ Balanced u)
    (balanced : Balanced t) (segs : segments (Token.scan t) = (first, items)) :
    ∃ q ∈ first :: items.map (·.2), ∃ x u' v' y, u = x ++ u' ∧ v = v' ++ y ∧ BothFound q u' o m p v' ∧
      Balanced q ∧ ¬ Balanced u' := by
  induction items generalizing t u first with
  | nil =>
      have single := segments_of_closed (show Closed t from congrArg Prod.snd segs)
      obtain rfl : t = first := congrArg Prod.fst (single.symm.trans segs)
      exact ⟨t, .head _, [], u, v, [], rfl, (List.append_nil v).symm, h, balanced, deep⟩
  | cons s items ih =>
      obtain ⟨op, second⟩ := s
      obtain ⟨w, whole, found, -, before, after, rest⟩ := exists_of_segments balanced segs
      rcases found.cases h.first with later | ⟨same, rfl⟩ | earlier
      · -- Both stand behind the first segment.
        obtain ⟨u', inner, -⟩ := found_iff.mp later
        have split : u = first ++ (op.separator ++ u') := by
          have same : u ++ (o.separator ++ (m ++ (p.separator ++ v))) =
              first ++ (op.separator ++ u') ++ (o.separator ++ (m ++ (p.separator ++ v))) := by
            rw [← h.whole, whole, inner]
            simp only [List.append_assoc, Mark.text]
          exact List.append_cancel_right same
        have deep' : ¬ Balanced u' := by
          intro closed
          exact deep (split ▸ before.append ((balanced_separator op).append closed))
        obtain ⟨q, hq, x, u'', v', y, rfl, behind, inside⟩ :=
          ih ⟨inner, later, h.second⟩ deep' after rest
        exact ⟨q, .tail _ hq, first ++ (op.separator ++ x), u'', v', y, by simp [split], behind, inside⟩
      · -- The first of them ends the first segment, so that it stands inside no pair.
        obtain rfl := Mark.operator.inj same
        exact absurd (List.append_cancel_right (whole.symm.trans h.whole) ▸ before) deep
      · obtain ⟨x, inner, -⟩ := found_iff.mp earlier
        have split : first = u ++ (o.separator ++ x) := by
          have same : first ++ (op.separator ++ w) = u ++ (o.separator ++ x) ++ (op.separator ++ w) := by
            rw [← whole, h.whole, inner]
            simp only [List.append_assoc, Mark.text]
          exact List.append_cancel_right same
        -- No segment ends between them: all that is open before the first of them would be closed.
        have beyond (y : Text) : m ≠ x ++ y := by
          rintro rfl
          rw [Balanced, levelThrough?_append] at between
          obtain ⟨level, through, -⟩ := Option.bind_eq_some_iff.mp between
          have rest : levelThrough? 0 (o.separator ++ x) = some level := by
            rwa [levelThrough?_append, levelThrough?_of_bare (bare_separator o) 0]
          exact deep ((split ▸ before).of_append rest)
        rcases earlier.cases h.second with later | ⟨same, rfl⟩ | later
        · obtain ⟨z, rfl, -⟩ := found_iff.mp later
          have same : m ++ (p.separator ++ v) = x ++ (op.separator ++ z) ++ (p.separator ++ v) := by
            simpa only [List.append_assoc, Mark.text] using inner
          exact absurd (List.append_cancel_right same) (beyond (op.separator ++ z))
        · obtain rfl := Mark.operator.inj same
          exact absurd (List.append_cancel_right inner) (by simpa using beyond [])
        · obtain ⟨z, rfl, -⟩ := found_iff.mp later
          have shorter := h.of_tail z
          have same : m ++ (p.separator ++ z) ++ (op.separator ++ w) = x ++ (op.separator ++ w) := by
            simpa only [List.append_assoc, Mark.text] using inner
          rw [List.append_cancel_right same, ← split] at shorter
          exact ⟨first, .head _, [], u, z, op.separator ++ w, rfl, rfl, shorter, before, deep⟩

end Segments

end ChoiceLogic.Markup
