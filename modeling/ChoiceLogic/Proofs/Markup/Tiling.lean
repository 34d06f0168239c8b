import ChoiceLogic.Proofs.Markup.Careful
import ChoiceLogic.Proofs.Markup.Greedy
import Mathlib.Data.List.Chain

/-! # Tilings

The spans of a text tile it: they stand one behind the other from its first byte to its last, a mark
stands where its text does, and between two marks there is one run at most, in which no mark starts, not
even one that would reach beyond it. No other spans tile the text. Operators overlap in ` AND AND `, and
it is the first of the two that counts: were it part of a run, it would start in one.
-/

namespace ChoiceLogic.Markup

open Text

/-- The text of a mark stands in the text from this byte on. -/
def StartsAt (t : Text) (byte : Nat) (m : Mark) : Prop :=
  slice? t byte (byte + byteSize m.text) = some m.text

/-- What makes spans the tokens of a text. -/
structure Tiling (t : Text) (spans : List Span) : Prop where
  /-- The first span starts at the start, each of the others where the one before it ends, and the last
  one ends at the end. -/
  joined : 0 :: spans.map Span.last = spans.map Span.first ++ [byteSize t]
  nonempty : ∀ s ∈ spans, s.first < s.last
  borders : ∀ s ∈ spans, Border t s.first ∧ Border t s.last
  marks : ∀ s ∈ spans, ∀ m, s.mark? = some m → slice? t s.first s.last = some m.text
  /-- Of two spans in a row at least one is a mark. -/
  apart : (spans.map Span.mark?).IsChain fun m next => m ≠ none ∨ next ≠ none
  /-- No mark starts in a run, wherever it ends. -/
  runs : ∀ s ∈ spans, s.mark? = none → ∀ byte, s.first ≤ byte → byte < s.last → ∀ m, ¬ StartsAt t byte m

/-! ## Tokens that tile -/

/-- Tokens that tile their own text. -/
inductive Tiles : List Token → Prop where
  | nil : Tiles []
  | mark (m : Mark) {ts : List Token} (rest : Tiles ts) : Tiles (.mark m :: ts)
  | run {r : Text} {ts : List Token} (nonempty : r ≠ [])
      (plain : ∀ v, v <:+ r → v ≠ [] → Mark.starting? (v ++ ts.flatMap Token.text) = none)
      (last : ∀ s us, ts ≠ .run s :: us) (rest : Tiles ts) : Tiles (.run r :: ts)

section Tokens

variable {ts us : List Token}

theorem tiles_scan (t : Text) : Tiles (Token.scan t) := by
  suffices ∀ ts rest, Taken t ts rest → Tiles ts from this _ [] (taken_iff.mpr ⟨rfl, rfl⟩)
  intro ts rest taken
  induction taken with
  | stop => exact .nil
  | more first later ih =>
      obtain ⟨rfl, rfl⟩ := taken_iff.mp later
      rcases next?_cases first with ⟨m, rfl, -⟩ | ⟨r, rfl, -, nonempty, plain, last⟩
      · exact .mark m ih
      · exact .run nonempty (by rwa [Token.flatMap_text_scan]) last ih

/-- Tokens that tile their text are the tokens of their text. -/
theorem Tiles.scan_eq (h : Tiles ts) : Token.scan (ts.flatMap Token.text) = ts := by
  induction h with
  | nil => rfl
  | mark m _ ih => rw [List.flatMap_cons, Token.text, Token.scan_text_append, ih]
  | run nonempty plain last _ ih =>
      rw [List.flatMap_cons, Token.text, scan_run_append nonempty plain (ih.symm ▸ last), ih]

theorem Tiles.of_append (h : Tiles (us ++ ts)) : Tiles ts := by
  induction us with
  | nil => exact h
  | cons u us ih =>
      cases h with
      | mark _ rest => exact ih rest
      | run _ _ _ rest => exact ih rest

theorem Tiles.text_ne_nil {t : Token} (h : Tiles (t :: ts)) : t.text ≠ [] := by
  cases h with
  | mark m => exact List.ne_nil_of_length_pos m.text_length_pos
  | run nonempty => exact nonempty

theorem Tiles.isChain_mark? (h : Tiles ts) :
    (ts.map Token.mark?).IsChain fun m next => m ≠ none ∨ next ≠ none := by
  induction h with
  | nil => exact .nil
  | @mark m ts _ ih =>
      cases ts with
      | nil => exact .singleton _
      | cons t ts => exact .cons_cons (.inl (Option.some_ne_none m)) ih
  | @run r ts _ _ last _ ih =>
      cases ts with
      | nil => exact .singleton _
      | cons t ts =>
          refine .cons_cons (.inr ?_) ih
          cases t with
          | mark m => exact Option.some_ne_none m
          | run s => exact absurd rfl (last s ts)

end Tokens

/-! ## Where tokens stand -/

section Spans

variable {byte : Nat} {t u : Text} {s : Span} {ss : List Span} {ts : List Token}

theorem mem_spansFrom_iff : s ∈ spansFrom byte ts ↔ ∃ us tok vs, ts = us ++ tok :: vs ∧
    s = ⟨tok.mark?, byte + byteSize (us.flatMap Token.text),
      byte + byteSize (us.flatMap Token.text) + byteSize tok.text⟩ := by
  constructor
  · intro h
    induction ts generalizing byte with
    | nil => cases h
    | cons t ts ih =>
        rcases List.mem_cons.mp h with rfl | later
        · exact ⟨[], t, ts, rfl, rfl⟩
        · obtain ⟨us, tok, vs, rfl, rfl⟩ := ih later
          refine ⟨t :: us, tok, vs, rfl, ?_⟩
          rw [List.flatMap_cons, byteSize_append, Nat.add_assoc byte]
  · rintro ⟨us, tok, vs, rfl, rfl⟩
    rw [Careful.spansFrom_append]
    exact List.mem_append_right _ (.head _)

theorem joined_spansFrom (byte : Nat) (ts : List Token) :
    byte :: (spansFrom byte ts).map Span.last =
      (spansFrom byte ts).map Span.first ++ [byte + byteSize (ts.flatMap Token.text)] := by
  induction ts generalizing byte with
  | nil => rfl
  | cons t ts ih =>
      rw [spansFrom, List.map_cons, List.map_cons, ih, List.flatMap_cons, byteSize_append,
        Nat.add_assoc, List.cons_append]

theorem map_mark?_spansFrom (byte : Nat) (ts : List Token) :
    (spansFrom byte ts).map Span.mark? = ts.map Token.mark? := by
  induction ts generalizing byte with
  | nil => rfl
  | cons t ts ih => rw [spansFrom, List.map_cons, List.map_cons, ih]

/-- A mark that starts in a run, and may reach beyond it, starts with some last part of the run. -/
theorem exists_startsAt_iff {a r b : Text} {m : Mark} :
    (∃ byte, byteSize a ≤ byte ∧ byte < byteSize (a ++ r) ∧ StartsAt (a ++ r ++ b) byte m) ↔
      ∃ v, v <:+ r ∧ v ≠ [] ∧ m.text <+: v ++ b := by
  constructor
  · rintro ⟨_, low, high, starts⟩
    obtain ⟨x, y, whole, rfl, -⟩ := slice?_eq_some_iff.mp starts
    have hx : x <+: a ++ r ++ b := by
      rw [whole, List.append_assoc]
      exact List.prefix_append x _
    obtain ⟨w, rfl⟩ : a <+: x := prefix_of_byteSize_le (by simp) hx low
    obtain ⟨v, hv⟩ : a ++ w <+: a ++ r := prefix_of_byteSize_le hx (by simp) (Nat.le_of_lt high)
    obtain rfl : w ++ v = r := by simpa using hv
    refine ⟨v, List.suffix_append w v, ?_, y, by simpa using whole.symm⟩
    rintro rfl
    simp at high
  · rintro ⟨v, ⟨w, rfl⟩, nonempty, y, start⟩
    have size := mt byteSize_eq_zero_iff.mp nonempty
    refine ⟨byteSize (a ++ w), by simp, ?_, slice?_eq_some_iff.mpr ⟨a ++ w, y, ?_, rfl, ?_⟩⟩
    · simp only [byteSize_append]
      omega
    · simp [start]
    · rw [byteSize_append _ m.text]

/-- Where tokens tile their text, their spans do. -/
theorem Tiles.tiling (h : Tiles ts) : Tiling (ts.flatMap Token.text) (spansFrom 0 ts) := by
  have found {s : Span} (hs : s ∈ spansFrom 0 ts) : ∃ a tok vs, Tiles (tok :: vs) ∧
      ts.flatMap Token.text = a ++ tok.text ++ vs.flatMap Token.text ∧
      s = ⟨tok.mark?, byteSize a, byteSize (a ++ tok.text)⟩ := by
    obtain ⟨us, tok, vs, rfl, rfl⟩ := mem_spansFrom_iff.mp hs
    exact ⟨us.flatMap Token.text, tok, vs, h.of_append, by simp, by simp⟩
  exact {
    joined := by simpa using joined_spansFrom 0 ts
    nonempty := by
      intro s hs
      obtain ⟨a, tok, vs, tiles, -, rfl⟩ := found hs
      have := mt byteSize_eq_zero_iff.mp tiles.text_ne_nil
      simp only [byteSize_append]
      omega
    borders := by
      intro s hs
      obtain ⟨a, tok, vs, -, whole, rfl⟩ := found hs
      rw [whole]
      exact ⟨⟨a, by simp, rfl⟩, a ++ tok.text, by simp, rfl⟩
    marks := by
      intro s hs m hm
      obtain ⟨a, tok, vs, -, whole, rfl⟩ := found hs
      cases tok with
      | run r => cases hm
      | mark n =>
          obtain rfl : n = m := Option.some.inj hm
          exact slice?_eq_some_iff.mpr ⟨a, _, whole, rfl, rfl⟩
    apart := map_mark?_spansFrom 0 ts ▸ h.isChain_mark?
    runs := by
      intro s hs hm byte low high m starts
      obtain ⟨a, tok, vs, tiles, whole, rfl⟩ := found hs
      cases tiles with
      | mark => cases hm
      | run _ plain _ _ =>
          rw [whole] at starts
          obtain ⟨v, suffix, nonempty, start⟩ := exists_startsAt_iff.mp ⟨byte, low, high, starts⟩
          exact Mark.not_prefix_of_starting?_eq_none (plain v suffix nonempty) m start }

/-! ## Tokens of a tiling -/

/-- Spans that stand one behind the other up to the end of the text are those of some tokens of it. -/
theorem exists_tokens (hu : u <+: t)
    (joined : byteSize u :: ss.map Span.last = ss.map Span.first ++ [byteSize t])
    (nonempty : ∀ s ∈ ss, s.first < s.last) (borders : ∀ s ∈ ss, Border t s.first ∧ Border t s.last)
    (marks : ∀ s ∈ ss, ∀ m, s.mark? = some m → slice? t s.first s.last = some m.text) :
    ∃ ts, u ++ ts.flatMap Token.text = t ∧ spansFrom (byteSize u) ts = ss := by
  induction ss generalizing u with
  | nil =>
      obtain ⟨size, -⟩ := List.cons.inj joined
      obtain rfl := eq_of_byteSize_eq hu List.prefix_rfl size
      exact ⟨[], List.append_nil u, rfl⟩
  | cons s ss ih =>
      obtain ⟨start, further⟩ := List.cons.inj joined
      have head : s ∈ s :: ss := .head ss
      obtain ⟨w, text⟩ := Option.isSome_iff_exists.mp
        (isSome_slice?_iff.mpr ⟨Nat.le_of_lt (nonempty s head), borders s head⟩)
      obtain ⟨x, y, whole, first, last⟩ := slice?_eq_some_iff.mp text
      have hx : x ++ w <+: t := ⟨y, whole.symm⟩
      obtain rfl : x = u :=
        eq_of_byteSize_eq ((List.prefix_append x w).trans hx) hu (first.trans start.symm)
      obtain ⟨ts, rest, spans⟩ := ih hx (last ▸ further) (fun s hs => nonempty s (.tail _ hs))
        (fun s hs => borders s (.tail _ hs)) fun s hs => marks s (.tail _ hs)
      obtain ⟨tok, tokText, mark⟩ : ∃ tok : Token, tok.text = w ∧ tok.mark? = s.mark? := by
        cases hm : s.mark? with
        | none => exact ⟨.run w, rfl, rfl⟩
        | some m => exact ⟨.mark m, Option.some.inj ((marks s head m hm).symm.trans text), rfl⟩
      refine ⟨tok :: ts, by simpa [tokText] using rest, ?_⟩
      rw [byteSize_append] at spans last
      rw [spansFrom, tokText, spans, mark, last, first]

/-- Where the spans of tokens tile their text, the tokens do. -/
theorem Tiling.tiles (h : Tiling (ts.flatMap Token.text) (spansFrom 0 ts)) : Tiles ts := by
  -- From the last token to the first, each with those before it in mind.
  suffices ∀ us vs, us ++ vs = ts → Tiles vs from this [] ts rfl
  intro us vs
  induction vs generalizing us with
  | nil => exact fun _ => .nil
  | cons tok vs ih =>
      rintro rfl
      have rest := ih (us ++ [tok]) (by simp)
      cases tok with
      | mark m => exact .mark m rest
      | run r =>
          have here : ⟨none, byteSize (us.flatMap Token.text), byteSize (us.flatMap Token.text ++ r)⟩ ∈
              spansFrom 0 (us ++ .run r :: vs) :=
            mem_spansFrom_iff.mpr ⟨us, .run r, vs, rfl, by simp [Token.mark?, Token.text]⟩
          refine .run ?_ (fun v suffix nonempty => ?_) ?_ rest
          · rintro rfl
            exact absurd (h.nonempty _ here) (by simp)
          · cases starts : Mark.starting? (v ++ vs.flatMap Token.text) with
            | none => rfl
            | some m =>
                have start := Mark.isPrefix_of_starting?_eq_some starts
                obtain ⟨byte, low, high, starts⟩ := exists_startsAt_iff.mpr ⟨v, suffix, nonempty, start⟩
                exact absurd (by simpa [Token.text] using starts) (h.runs _ here rfl byte low high m)
          · rintro s vs rfl
            have apart := h.apart
            rw [map_mark?_spansFrom, List.map_append] at apart
            have := (List.isChain_append_cons_cons.mp apart).2.1
            exact this.elim (absurd rfl) (absurd rfl)

end Spans

/-- The spans of a text tile it, and no others do. -/
theorem tiling_iff (t : Text) (ss : List Span) : Tiling t ss ↔ ss = spans t := by
  constructor
  · intro h
    obtain ⟨ts, rfl, rfl⟩ := exists_tokens List.nil_prefix h.joined h.nonempty h.borders h.marks
    exact congrArg (spansFrom 0) h.tiles.scan_eq.symm
  · rintro rfl
    have tiling := (tiles_scan t).tiling
    rwa [Token.flatMap_text_scan] at tiling

/-- The second of two operators that share a space is part of a run. -/
example : spans "A AND OR B".toList =
    [⟨none, 0, 1⟩, ⟨some (.operator .and), 1, 6⟩, ⟨none, 6, 10⟩] := by decide

end ChoiceLogic.Markup
