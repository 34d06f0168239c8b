import ChoiceLogic.Proofs.Markup.Scan

/-! # One token after the other

A token can be taken off the front of a text: the first of the marks that starts there, or else as many
characters as there are before a mark starts. To see whether one starts takes nothing off. Repeated for as
long as there is a token to take, this always gets to the end of the text, and what it takes are the
tokens of the text.
-/

namespace ChoiceLogic.Markup

/-- The characters before the first mark that starts in a text, and what is left behind them. -/
def leadingRun : Text → Text × Text
  | [] => ([], [])
  | c :: t =>
    if Mark.starting? (c :: t) = none then (c :: (leadingRun t).1, (leadingRun t).2) else ([], c :: t)

/-- The first token of a text, and what is left behind it. -/
def next? (t : Text) : Option (Token × Text) :=
  match Mark.starting? t with
  | some m => some (.mark m, t.drop m.text.length)
  | none => if (leadingRun t).1 = [] then none else some (.run (leadingRun t).1, (leadingRun t).2)

/-- Tokens that are taken one after the other until there is none to take, and what is left then. -/
inductive Taken : Text → List Token → Text → Prop where
  | stop {t : Text} (finished : next? t = none) : Taken t [] t
  | more {t behind rest : Text} {first : Token} {others : List Token}
      (taken : next? t = some (first, behind)) (later : Taken behind others rest) :
      Taken t (first :: others) rest

section Taking

variable {t r behind rest : Text} {tok : Token} {ts : List Token}

/-! ## Runs -/

theorem Token.extend_of_not_run {c : Char} (last : ∀ s us, ts ≠ .run s :: us) :
    extend c ts = .run [c] :: ts := by
  cases ts with
  | nil => rfl
  | cons t ts =>
      cases t with
      | mark m => rfl
      | run s => exact absurd rfl (last s ts)

/-- A text in which no mark starts is one token, if the token behind it is no run. -/
theorem scan_run_append (nonempty : r ≠ [])
    (plain : ∀ v, v <:+ r → v ≠ [] → Mark.starting? (v ++ t) = none)
    (last : ∀ s us, Token.scan t ≠ .run s :: us) : Token.scan (r ++ t) = .run r :: Token.scan t := by
  induction r with
  | nil => exact absurd rfl nonempty
  | cons c r ih =>
      have start : Mark.starting? (c :: (r ++ t)) = none := plain (c :: r) List.suffix_rfl nonempty
      rw [List.cons_append, Token.scan_cons_of_none start]
      cases r with
      | nil => exact Token.extend_of_not_run last
      | cons d r =>
          have inner := ih (List.cons_ne_nil d r) fun v hv => plain v (hv.trans (List.suffix_cons c _))
          rw [inner]
          rfl

theorem leadingRun_append (t : Text) : (leadingRun t).1 ++ (leadingRun t).2 = t := by
  induction t with
  | nil => rfl
  | cons c t ih =>
      rw [leadingRun]
      split
      · exact congrArg (c :: ·) ih
      · rfl

theorem starting?_within_leadingRun {v : Text} (suffix : v <:+ (leadingRun t).1) (nonempty : v ≠ []) :
    Mark.starting? (v ++ (leadingRun t).2) = none := by
  induction t with
  | nil => exact absurd (List.suffix_nil.mp suffix) nonempty
  | cons c t ih =>
      rw [leadingRun] at suffix ⊢
      split at suffix
      · next start =>
          rw [if_pos start]
          rcases List.suffix_cons_iff.mp suffix with rfl | inside
          · rwa [List.cons_append, leadingRun_append]
          · exact ih inside
      · exact absurd (List.suffix_nil.mp suffix) nonempty

/-- A run ends just where a mark starts or the text ends. -/
theorem scan_behind_leadingRun (t : Text) (s : Text) (us : List Token) :
    Token.scan (leadingRun t).2 ≠ .run s :: us := by
  induction t with
  | nil => simp [leadingRun, Token.scan_nil]
  | cons c t ih =>
      rw [leadingRun]
      split
      · exact ih
      · next start =>
          obtain ⟨m, start⟩ := Option.ne_none_iff_exists'.mp start
          simp [Token.scan_cons, start]

/-! ## The first token -/

theorem next?_eq_none_iff : next? t = none ↔ t = [] := by
  cases t with
  | nil => simp [next?, leadingRun, show Mark.starting? [] = none from rfl]
  | cons c t =>
      cases start : Mark.starting? (c :: t) with
      | some m => simp [next?, start]
      | none => simp [next?, leadingRun, start]

/-- What a first token is. -/
theorem next?_cases (first : next? t = some (tok, behind)) :
    (∃ m, tok = .mark m ∧ t = m.text ++ behind) ∨
    (∃ r, tok = .run r ∧ t = r ++ behind ∧ r ≠ [] ∧
      (∀ v, v <:+ r → v ≠ [] → Mark.starting? (v ++ behind) = none) ∧
      ∀ s us, Token.scan behind ≠ .run s :: us) := by
  rw [next?] at first
  split at first
  · next m start =>
      obtain ⟨rfl, rfl⟩ := Prod.mk.inj (Option.some.inj first)
      obtain ⟨behind, rfl⟩ := Mark.isPrefix_of_starting?_eq_some start
      exact .inl ⟨m, rfl, by rw [List.drop_left]⟩
  · split at first
    · cases first
    · next nonempty =>
        obtain ⟨rfl, rfl⟩ := Prod.mk.inj (Option.some.inj first)
        exact .inr ⟨_, rfl, (leadingRun_append t).symm, nonempty,
          fun _ => starting?_within_leadingRun, scan_behind_leadingRun t⟩

theorem scan_of_next? (first : next? t = some (tok, behind)) :
    Token.scan t = tok :: Token.scan behind := by
  rcases next?_cases first with ⟨m, rfl, rfl⟩ | ⟨r, rfl, rfl, nonempty, plain, last⟩
  · exact Token.scan_text_append m behind
  · exact scan_run_append nonempty plain last

/-! ## All tokens -/

/-- Taking tokens gets to the end of every text, and it takes the tokens of the text. -/
theorem taken_iff : Taken t ts rest ↔ ts = Token.scan t ∧ rest = [] := by
  constructor
  · intro taken
    induction taken with
    | stop finished =>
        obtain rfl := next?_eq_none_iff.mp finished
        exact ⟨rfl, rfl⟩
    | more first _ ih => exact ⟨by rw [scan_of_next? first, ih.1], ih.2⟩
  · rintro ⟨tokens, rfl⟩
    induction ts generalizing t with
    | nil =>
        have text := Token.flatMap_text_scan t
        rw [← tokens] at text
        subst text
        exact .stop (next?_eq_none_iff.mpr rfl)
    | cons tok ts ih =>
        cases first : next? t with
        | none =>
            rw [next?_eq_none_iff.mp first] at tokens
            cases tokens
        | some found =>
            rw [scan_of_next? first] at tokens
            obtain ⟨rfl, others⟩ := List.cons.inj tokens
            exact .more first (ih others)

end Taking

end ChoiceLogic.Markup
