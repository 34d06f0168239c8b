import ChoiceLogic.Markup.Group
import ChoiceLogic.Proofs.Markup.Scan
import ChoiceLogic.Proofs.Text.Trim

/-! # Balanced texts

Whether the parentheses of a text are balanced can be told from its characters alone, and so for a
text that is put together from others. A balanced part does not close a pair of the text around it.
-/

namespace ChoiceLogic.Markup

/-- The level behind a character. At level zero there is none behind a closing parenthesis. -/
def levelBehind? (level : Nat) (c : Char) : Option Nat :=
  if c = '(' then some (level + 1)
  else if c = ')' then (if level = 0 then none else some (level - 1))
  else some level

def levelThrough? (level : Nat) (t : Text) : Option Nat :=
  t.foldlM levelBehind? level

def Balanced (t : Text) : Prop :=
  levelThrough? 0 t = some 0

instance (t : Text) : Decidable (Balanced t) :=
  inferInstanceAs (Decidable (_ = _))

/-- Without parentheses. -/
def Bare (t : Text) : Prop :=
  ∀ c ∈ t, c ≠ '(' ∧ c ≠ ')'

instance (t : Text) : Decidable (Bare t) :=
  decidable_of_iff (t.all fun c => c ≠ '(' && c ≠ ')') (by simp [Bare])

section Levels

variable {level behind : Nat} {u v : Text}

theorem levelThrough?_nil (level : Nat) : levelThrough? level [] = some level := rfl

theorem levelThrough?_cons (level : Nat) (c : Char) (t : Text) :
    levelThrough? level (c :: t) = (levelBehind? level c).bind (levelThrough? · t) := rfl

theorem levelThrough?_append (level : Nat) (u v : Text) :
    levelThrough? level (u ++ v) = (levelThrough? level u).bind (levelThrough? · v) :=
  List.foldlM_append

theorem forall_prefix_cons_iff {c : Char} {p : Text → Prop} :
    (∀ v, v <+: c :: u → p v) ↔ p [] ∧ ∀ v, v <+: u → p (c :: v) := by
  constructor
  · intro all
    exact ⟨all [] List.nil_prefix, fun v hv => all (c :: v) ((List.prefix_cons_inj c).mpr hv)⟩
  · rintro ⟨nil, cons⟩ v hv
    rcases List.prefix_cons_iff.mp hv with rfl | ⟨w, rfl, hw⟩
    · exact nil
    · exact cons w hw

/-- The level behind a text, by counting: there is one if no beginning of the text closes more pairs
than are open. -/
theorem levelThrough?_eq_some_iff : levelThrough? level u = some behind ↔
    behind + u.count ')' = level + u.count '(' ∧
      ∀ v, v <+: u → v.count ')' ≤ level + v.count '(' := by
  induction u generalizing level with
  | nil => simp [levelThrough?_nil, eq_comm]
  | cons c u ih =>
      rw [levelThrough?_cons, forall_prefix_cons_iff]
      by_cases opening : c = '('
      · have step : levelBehind? level c = some (level + 1) := by simp [levelBehind?, opening]
        rw [step, Option.bind_some, ih]
        grind
      · by_cases closing : c = ')'
        · subst closing
          cases level with
          | zero =>
              have early : ¬ [')'].count ')' ≤ 0 + [')'].count '(' := by decide
              have step : levelBehind? 0 ')' = none := rfl
              rw [step, Option.bind_none]
              simp only [reduceCtorEq, false_iff, not_and]
              exact fun _ _ all => early (all [] List.nil_prefix)
          | succ level =>
              have step : levelBehind? (level + 1) ')' = some level := rfl
              rw [step, Option.bind_some, ih]
              grind
        · have step : levelBehind? level c = some level := by simp [levelBehind?, opening, closing]
          rw [step, Option.bind_some, ih]
          grind

/-- As many parentheses open as close, and none closes before it is opened. -/
theorem balanced_iff_count : Balanced u ↔
    u.count '(' = u.count ')' ∧ ∀ v, v <+: u → v.count ')' ≤ v.count '(' := by
  rw [Balanced, levelThrough?_eq_some_iff]
  simp only [Nat.zero_add, eq_comm]

theorem levelThrough?_of_bare (h : Bare u) (level : Nat) : levelThrough? level u = some level := by
  induction u with
  | nil => rfl
  | cons c u ih =>
      have this : levelBehind? level c = some level := by simp [levelBehind?, h c (.head u)]
      rw [levelThrough?_cons, this]
      exact ih fun d hd => h d (.tail c hd)

theorem levelThrough?_add (h : levelThrough? level u = some behind) (more : Nat) :
    levelThrough? (level + more) u = some (behind + more) := by
  induction u generalizing level with
  | nil =>
      obtain rfl := Option.some.inj h
      rfl
  | cons c u ih =>
      rw [levelThrough?_cons] at h ⊢
      obtain ⟨next, hnext, h⟩ := Option.bind_eq_some_iff.mp h
      have step : levelBehind? (level + more) c = some (next + more) := by
        unfold levelBehind? at hnext ⊢
        split
        · next opening =>
            simp only [opening, if_true, Option.some.injEq] at hnext
            rw [← hnext, Nat.add_right_comm]
        · next other =>
            rw [if_neg other] at hnext
            split
            · next closing =>
                rw [if_pos closing] at hnext
                split at hnext
                · cases hnext
                · obtain rfl := Option.some.inj hnext
                  rw [if_neg (by omega)]
                  congr 1
                  omega
            · next plain =>
                rw [if_neg plain] at hnext
                obtain rfl := Option.some.inj hnext
                rfl
      rw [step]
      exact ih h

theorem Balanced.at_level (h : Balanced u) (level : Nat) : levelThrough? level u = some level := by
  simpa using levelThrough?_add h level

theorem Balanced.append (hu : Balanced u) (hv : Balanced v) : Balanced (u ++ v) := by
  rw [Balanced, levelThrough?_append, hu]
  exact hv

theorem Bare.of_inside (h : Bare v) (inside : u <:+: v) : Bare u :=
  fun c hc => h c (inside.subset hc)

theorem balanced_of_bare (h : Bare u) : Balanced u :=
  levelThrough?_of_bare h 0

/-- What stands before a text that closes no pair from before it is balanced if the whole is. -/
theorem Balanced.of_append (h : Balanced (u ++ v)) (through : levelThrough? 0 v = some behind) :
    Balanced u := by
  rw [Balanced, levelThrough?_append] at h
  obtain ⟨level, before, rest⟩ := Option.bind_eq_some_iff.mp h
  rw [← Nat.zero_add level, levelThrough?_add through] at rest
  have sum := Option.some.inj rest
  rw [Balanced, before, show level = 0 by omega]

theorem Balanced.of_append_bare (h : Balanced (u ++ v)) (bare : Bare v) : Balanced u :=
  h.of_append (levelThrough?_of_bare bare 0)

theorem Balanced.enclosed (h : Balanced u) : Balanced ('(' :: (u ++ [')'])) := by
  have inner : levelThrough? 1 (u ++ [')']) = some 0 := by
    rw [levelThrough?_append, h.at_level 1]
    rfl
  exact inner

theorem bare_of_blank (h : Text.Blank u) : Bare u := by
  intro c hc
  have blank := h c hc
  constructor
  · rintro rfl
    exact absurd blank (by decide)
  · rintro rfl
    exact absurd blank (by decide)

theorem levelThrough?_trim (level : Nat) (t : Text) :
    levelThrough? level (Text.trim t) = levelThrough? level t := by
  obtain ⟨g, h, hg, hh, whole⟩ := Text.padded_trim t
  have around := congrArg (levelThrough? level) whole
  rw [levelThrough?_append, levelThrough?_append, levelThrough?_of_bare (bare_of_blank hg),
    Option.bind_some] at around
  rw [around]
  cases levelThrough? level (Text.trim t) with
  | none => rfl
  | some behind => exact (levelThrough?_of_bare (bare_of_blank hh) behind).symm

theorem balanced_trim_iff : Balanced (Text.trim u) ↔ Balanced u := by
  rw [Balanced, levelThrough?_trim, Balanced]

theorem bare_separator (op : Operator) : Bare op.separator := by
  cases op <;> decide

theorem balanced_separator (op : Operator) : Balanced op.separator :=
  balanced_of_bare (bare_separator op)

theorem bare_intercalate {ps : List Text} (op : Operator) (h : ∀ p ∈ ps, Bare p) :
    Bare (op.separator.intercalate ps) := by
  induction ps with
  | nil => simp [Bare]
  | cons p ps ih =>
      have later := ih fun q hq => h q (.tail p hq)
      cases ps with
      | nil => simpa using h p (.head _)
      | cons q ps =>
          intro c hc
          simp only [List.intercalate_cons_cons, List.mem_append] at hc
          rcases hc with (hc | hc) | hc
          · exact h p (.head _) c hc
          · exact bare_separator op c hc
          · exact later c hc

/-- The text without its parentheses. -/
def stripped (t : Text) : Text :=
  t.filter fun c => c ≠ '(' && c ≠ ')'

theorem stripped_append (u v : Text) : stripped (u ++ v) = stripped u ++ stripped v :=
  List.filter_append ..

theorem stripped_of_bare (h : Bare u) : stripped u = u := by
  refine List.filter_eq_self.mpr fun c hc => ?_
  simp [h c hc]

theorem bare_stripped (t : Text) : Bare (stripped t) := by
  intro c hc
  simpa using (List.mem_filter.mp hc).2

theorem stripped_enclosed (u : Text) : stripped ('(' :: (u ++ [')'])) = stripped u := by
  simp [stripped]

theorem stripped_intercalate (op : Operator) (ps : List Text) :
    stripped (op.separator.intercalate ps) = op.separator.intercalate (ps.map stripped) := by
  induction ps with
  | nil => rfl
  | cons p ps ih =>
      cases ps with
      | nil => simp
      | cons q ps =>
          have separator := stripped_of_bare (bare_separator op)
          rw [List.intercalate_cons_cons, stripped_append, stripped_append, ih, separator]
          simp only [List.map_cons, List.intercalate_cons_cons]

theorem Balanced.intercalate {ps : List Text} (op : Operator) (h : ∀ p ∈ ps, Balanced p) :
    Balanced (op.separator.intercalate ps) := by
  induction ps with
  | nil => rfl
  | cons p ps ih =>
      have later := ih fun q hq => h q (.tail p hq)
      cases ps with
      | nil => simpa using h p (.head _)
      | cons q ps =>
          rw [List.intercalate_cons_cons]
          exact ((h p (.head _)).append (balanced_separator op)).append later

end Levels

/-! ## What the tokens say -/

section Tokens

variable {level behind : Nat} {ts us : List Token}

/-- All parentheses in the texts of the tokens are marks. -/
def RunsBare (ts : List Token) : Prop :=
  ∀ r, .run r ∈ ts → Bare r

theorem runsBare_scan (t : Text) : RunsBare (Token.scan t) := by
  intro r hr c hc
  have := Token.parenthesis_notMem_run hr
  constructor
  · rintro rfl
    exact this.1 hc
  · rintro rfl
    exact this.2 hc

/-- Going through the tokens of a balanced text. -/
theorem Balanced.through_scan {t : Text} (h : Balanced t) :
    levelThrough? 0 ((Token.scan t).flatMap Token.text) = some 0 := by
  rwa [Token.flatMap_text_scan]

theorem levelThrough?_token {t : Token} (h : ∀ r, t = .run r → Bare r) (level : Nat) :
    levelThrough? level t.text =
      if t = .mark .closing ∧ level = 0 then none else some (t.levelAfter level) := by
  cases t with
  | run r => simpa [Token.text, Token.levelAfter] using levelThrough?_of_bare (h r rfl) level
  | mark m =>
      cases m with
      | operator op =>
          have plain := levelThrough?_of_bare (bare_separator op) level
          simpa [Token.text, Mark.text, Token.levelAfter] using plain
      | opening => simp [Token.text, Mark.text, levelThrough?, levelBehind?, Token.levelAfter]
      | closing =>
          by_cases zero : level = 0 <;>
            simp [Token.text, Mark.text, levelThrough?, levelBehind?, Token.levelAfter, zero]

theorem RunsBare.head {t : Token} (h : RunsBare (t :: ts)) : ∀ r, t = .run r → Bare r := by
  rintro r rfl
  exact h r (.head ts)

theorem RunsBare.tail {t : Token} (h : RunsBare (t :: ts)) : RunsBare ts :=
  fun r hr => h r (.tail t hr)

/-- Going through a token, and then through the rest. -/
theorem levelThrough?_tokens_cons {t : Token} (h : RunsBare (t :: ts)) (level : Nat) :
    levelThrough? level ((t :: ts).flatMap Token.text) =
      if t = .mark .closing ∧ level = 0 then none
      else levelThrough? (t.levelAfter level) (ts.flatMap Token.text) := by
  rw [List.flatMap_cons, levelThrough?_append, levelThrough?_token h.head]
  split <;> rfl

/-- The level behind the tokens, by counting their parentheses. -/
theorem levelThrough?_tokens_eq_some_iff (h : RunsBare ts) (byte : Nat) :
    levelThrough? level (ts.flatMap Token.text) = some behind ↔
      closingFirst? level byte ts = none ∧
        behind + ts.count (.mark .closing) = level + ts.count (.mark .opening) := by
  induction ts generalizing level byte with
  | nil => simp [closingFirst?, levelThrough?_nil, eq_comm]
  | cons t ts ih =>
      rw [levelThrough?_tokens_cons h, closingFirst?]
      by_cases early : t = .mark .closing ∧ level = 0
      · simp [early]
      · rw [if_neg early, if_neg early, ih h.tail (byte + t.text.byteSize)]
        refine and_congr_right fun _ => ?_
        cases t with
        | run r => simp [Token.levelAfter]
        | mark m =>
            cases m with
            | operator op => simp [Token.levelAfter]
            | opening =>
                simp [Token.levelAfter]
                omega
            | closing =>
                have pos : level ≠ 0 := fun zero => early ⟨rfl, zero⟩
                simp [Token.levelAfter]
                omega

theorem imbalance?_scan_eq_none_iff {t : Text} : imbalance? (Token.scan t) = none ↔ Balanced t := by
  have counted : levelThrough? 0 ((Token.scan t).flatMap Token.text) = some 0 ↔ _ :=
    levelThrough?_tokens_eq_some_iff (runsBare_scan t) 0
  rw [Token.flatMap_text_scan] at counted
  rw [Balanced, counted, imbalance?]
  split
  · simp
    omega
  · split
    · simp
      omega
    · simp
      omega

end Tokens

/-! ## Enclosing pairs -/

section Enclosing

variable {level behind : Nat} {ts us : List Token}

theorem levelAfter_succ {t : Token} (early : ¬ (t = .mark .closing ∧ level = 0)) :
    t.levelAfter (level + 1) = t.levelAfter level + 1 := by
  cases t with
  | run r => rfl
  | mark m =>
      cases m with
      | operator | opening => rfl
      | closing =>
          simp only [Token.levelAfter, true_and] at early ⊢
          omega

/-- The tokens of a balanced part do not close a pair that is open before it. -/
theorem enclosed?_append (h : RunsBare ts)
    (through : levelThrough? level (ts.flatMap Token.text) = some behind) :
    enclosed? (level + 1) (ts ++ us) =
      (enclosed? (behind + 1) us).map (ts.flatMap Token.text ++ ·) := by
  induction ts generalizing level with
  | nil =>
      obtain rfl := Option.some.inj through
      simp
  | cons t ts ih =>
      rw [levelThrough?_tokens_cons h] at through
      split at through
      · cases through
      · next early =>
          rw [List.cons_append, enclosed?, levelAfter_succ early, if_neg (by omega), ih h.tail through,
            Option.map_map]
          congr 1
          funext x
          simp

theorem group?_scan_enclosed {t : Text} (h : Balanced t) :
    group? (Token.scan ('(' :: (t ++ [')']))) = some t := by
  rw [Token.scan_enclosed, group?, enclosed?_append (runsBare_scan t) h.through_scan,
    Token.flatMap_text_scan]
  simp [enclosed?, Token.levelAfter]

/-- What is enclosed is followed by the parenthesis that closes the last pair, and closes the others. -/
theorem of_enclosed? {inner : Text} (bare : RunsBare ts) (h : enclosed? (level + 1) ts = some inner) :
    ts.flatMap Token.text = inner ++ [')'] ∧ levelThrough? level inner = some 0 := by
  induction ts generalizing level inner with
  | nil => simp [enclosed?] at h
  | cons t ts ih =>
      rw [enclosed?] at h
      by_cases last : t = .mark .closing ∧ level = 0
      · obtain ⟨rfl, rfl⟩ := last
        simp only [Token.levelAfter, Nat.add_sub_cancel, if_true] at h
        split at h
        · next only =>
            obtain rfl := Option.some.inj h
            rw [only]
            exact ⟨rfl, rfl⟩
        · cases h
      · rw [levelAfter_succ last, if_neg (by omega)] at h
        obtain ⟨later, hlater, rfl⟩ := Option.map_eq_some_iff.mp h
        obtain ⟨text, through⟩ := ih bare.tail hlater
        constructor
        · rw [List.flatMap_cons, text, List.append_assoc]
        · rw [levelThrough?_append, levelThrough?_token bare.head, if_neg last]
          exact through

/-- What is enclosed stands between parentheses, and is balanced itself. -/
theorem of_group? {t inner : Text} (h : group? (Token.scan t) = some inner) :
    t = '(' :: (inner ++ [')']) ∧ Balanced inner := by
  have whole := Token.flatMap_text_scan t
  have bare := runsBare_scan t
  unfold group? at h
  split at h
  · next rest tokens =>
      rw [tokens] at bare whole
      obtain ⟨text, through⟩ := of_enclosed? bare.tail h
      rw [List.flatMap_cons, text] at whole
      exact ⟨whole.symm, through⟩
  · cases h

theorem eq_of_group? {t inner : Text} (h : group? (Token.scan t) = some inner) :
    t = '(' :: (inner ++ [')']) :=
  (of_group? h).1

end Enclosing

end ChoiceLogic.Markup
