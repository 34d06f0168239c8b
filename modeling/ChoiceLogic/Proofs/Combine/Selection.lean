import ChoiceLogic.Text.Basic
import Mathlib.Data.List.Induction

/-! # Selecting from a list

Two selections make up the canonical order of operands: of elements that repeat each other the first
is kept, and what is kept is sorted by a text. Both are determined separately on every part of the
list whose elements share that text, and this is what lets them be exchanged and done in steps.
-/

namespace ChoiceLogic.Selection

variable {α : Type}

/-- What a test for repetitions satisfies. An element need not repeat itself. -/
structure Repetition (r : α → α → Bool) : Prop where
  symm : ∀ {a b}, r a b → r b a
  trans : ∀ {a b c}, r a b → r b c → r a c

/-- The elements that do not repeat this one. -/
def unlike (r : α → α → Bool) (a : α) (l : List α) : List α :=
  l.filter fun b => r b a = false

theorem mem_unlike {r : α → α → Bool} {a b : α} {l : List α} :
    b ∈ unlike r a l ↔ b ∈ l ∧ r b a = false := by
  simp [unlike]

theorem unlike_unlike (r : α → α → Bool) (a : α) (l : List α) :
    unlike r a (unlike r a l) = unlike r a l := by
  simp [unlike, List.filter_filter]

theorem unlike_cons (r : α → α → Bool) (a b : α) (l : List α) :
    unlike r a (b :: l) = if r b a then unlike r a l else b :: unlike r a l := by
  cases h : r b a <;> simp [unlike, h]

theorem unlike_append (r : α → α → Bool) (a : α) (l m : List α) :
    unlike r a (l ++ m) = unlike r a l ++ unlike r a m :=
  List.filter_append ..

theorem eraseDupsBy_cons (r : α → α → Bool) (a : α) (l : List α) :
    (a :: l).eraseDupsBy r = a :: (unlike r a l).eraseDupsBy r :=
  List.eraseDupsBy_cons

/-- Induction along the elements that are kept. -/
theorem unlike_induction {motive : List α → Prop} (r : α → α → Bool) (nil : motive [])
    (cons : ∀ a l, motive (unlike r a l) → motive (a :: l)) (l : List α) : motive l := by
  induction n : l.length using Nat.strongRecOn generalizing l with
  | ind n ih =>
      cases l with
      | nil => exact nil
      | cons a l =>
          have shorter : (unlike r a l).length ≤ l.length := List.length_filter_le _ l
          refine cons a l (ih (unlike r a l).length ?_ _ rfl)
          simp only [List.length_cons] at n
          omega

theorem eraseDupsBy_sublist (r : α → α → Bool) (l : List α) : (l.eraseDupsBy r).Sublist l := by
  induction l using unlike_induction r with
  | nil => exact .slnil
  | cons a l ih =>
      rw [eraseDupsBy_cons]
      exact (ih.trans List.filter_sublist).cons_cons a

theorem eraseDupsBy_congr {r s : α → α → Bool} {l : List α}
    (h : ∀ a ∈ l, ∀ b ∈ l, r a b = s a b) : l.eraseDupsBy r = l.eraseDupsBy s := by
  induction l using unlike_induction s with
  | nil => rfl
  | cons a l ih =>
      have agree : unlike r a l = unlike s a l :=
        List.filter_congr fun b hb => by rw [h b (.tail a hb) a (.head l)]
      rw [eraseDupsBy_cons, eraseDupsBy_cons, agree, ih]
      intro b hb c hc
      exact h b (.tail a (mem_unlike.mp hb).1) c (.tail a (mem_unlike.mp hc).1)

theorem pairwise_eraseDupsBy (r : α → α → Bool) (l : List α) :
    (l.eraseDupsBy r).Pairwise fun a b => r b a = false := by
  induction l using unlike_induction r with
  | nil => exact .nil
  | cons a l ih =>
      rw [eraseDupsBy_cons]
      exact ih.cons fun b hb => (mem_unlike.mp ((eraseDupsBy_sublist r _).mem hb)).2

theorem eraseDupsBy_of_pairwise {r : α → α → Bool} {l : List α}
    (h : l.Pairwise fun a b => r b a = false) : l.eraseDupsBy r = l := by
  induction h with
  | nil => rfl
  | @cons a l distinct _ ih =>
      rw [eraseDupsBy_cons, unlike, List.filter_eq_self.mpr (by simpa using distinct), ih]

/-- Of an element and those that it repeats one is kept. -/
theorem exists_mem_eraseDupsBy (r : α → α → Bool) {l : List α} {a : α} (mem : a ∈ l) :
    ∃ b ∈ l.eraseDupsBy r, a = b ∨ r a b := by
  induction l using unlike_induction r with
  | nil => cases mem
  | cons b l ih =>
      rw [eraseDupsBy_cons]
      by_cases here : a = b ∨ r a b
      · exact ⟨b, .head _, here⟩
      · obtain ⟨other, unrepeated⟩ := not_or.mp here
        have later : a ∈ l := (List.mem_cons.mp mem).resolve_left other
        obtain ⟨c, kept, same⟩ := ih (mem_unlike.mpr ⟨later, eq_false_of_ne_true unrepeated⟩)
        exact ⟨c, .tail b kept, same⟩

/-- Every element is kept once if only equal ones repeat each other. -/
theorem mem_eraseDupsBy {r : α → α → Bool} {l : List α} (h : ∀ a ∈ l, ∀ b ∈ l, r b a → b = a) (a : α) :
    a ∈ l.eraseDupsBy r ↔ a ∈ l := by
  constructor
  · exact (eraseDupsBy_sublist r l).mem
  · intro mem
    obtain ⟨b, kept, rfl | repeated⟩ := exists_mem_eraseDupsBy r mem
    · exact kept
    · exact h b ((eraseDupsBy_sublist r l).mem kept) a mem repeated ▸ kept

/-- A filter that treats elements alike when they repeat each other may come first. -/
theorem filter_eraseDupsBy {r : α → α → Bool} {p : α → Bool} (hp : ∀ a b, r b a → p a = p b)
    (l : List α) : (l.eraseDupsBy r).filter p = (l.filter p).eraseDupsBy r := by
  induction l using unlike_induction r with
  | nil => rfl
  | cons a l ih =>
      by_cases ha : p a
      · have swap : (unlike r a l).filter p = unlike r a (l.filter p) := by
          simp only [unlike, List.filter_filter, Bool.and_comm]
        rw [eraseDupsBy_cons, List.filter_cons_of_pos ha, List.filter_cons_of_pos ha,
          eraseDupsBy_cons, ih, swap]
      · -- What repeats an element that the filter leaves out is left out as well.
        have same : (unlike r a l).filter p = l.filter p := by
          rw [unlike, List.filter_filter]
          refine List.filter_congr fun b _ => ?_
          cases hb : r b a with
          | false => simp
          | true => simp [← hp a b hb, ha]
        rw [eraseDupsBy_cons, List.filter_cons_of_neg ha, List.filter_cons_of_neg ha, ih, same]

theorem Repetition.eq_of_repeats {r : α → α → Bool} (hr : Repetition r) {a b : α} (h : r a b) (c : α) :
    r a c = r b c :=
  Bool.eq_iff_iff.mpr ⟨fun hac => hr.trans (hr.symm h) hac, fun hbc => hr.trans h hbc⟩

theorem Repetition.comm {r : α → α → Bool} (hr : Repetition r) (a b : α) : r a b = r b a :=
  Bool.eq_iff_iff.mpr ⟨hr.symm, hr.symm⟩

theorem Repetition.unlike_eraseDupsBy {r : α → α → Bool} (hr : Repetition r) (a : α) (l : List α) :
    unlike r a (l.eraseDupsBy r) = (unlike r a l).eraseDupsBy r := by
  refine filter_eraseDupsBy (fun b c hcb => ?_) l
  rw [hr.eq_of_repeats hcb a]

theorem Repetition.eraseDupsBy_append {r : α → α → Bool} (hr : Repetition r)
    (middle right : List α) :
    (middle.eraseDupsBy r ++ right).eraseDupsBy r = (middle ++ right).eraseDupsBy r := by
  induction middle using unlike_induction r generalizing right with
  | nil => rfl
  | cons a middle ih =>
      have step := ih (unlike r a right)
      rw [eraseDupsBy_cons, List.cons_append, List.cons_append, eraseDupsBy_cons, eraseDupsBy_cons,
        unlike_append, unlike_append, hr.unlike_eraseDupsBy, unlike_unlike, step]

/-- Dropping the repeats of one part of a list first makes no difference. -/
theorem Repetition.eraseDupsBy_append_append {r : α → α → Bool} (hr : Repetition r)
    (left middle right : List α) :
    (left ++ middle.eraseDupsBy r ++ right).eraseDupsBy r =
      (left ++ middle ++ right).eraseDupsBy r := by
  induction left using unlike_induction r generalizing middle right with
  | nil => exact hr.eraseDupsBy_append middle right
  | cons a left ih =>
      have step := ih (unlike r a middle) (unlike r a right)
      simp only [List.cons_append, eraseDupsBy_cons, unlike_append, hr.unlike_eraseDupsBy, step]

/-- What has occurred before is not kept again, wherever it stands. It need not have been kept itself, but
then it repeated something that was. -/
theorem eraseDupsBy_append_append_of_subset {r : α → α → Bool} {l m : List α} (before : m ⊆ l)
    (itself : ∀ a ∈ m, r a a) (k : List α) : (l ++ m ++ k).eraseDupsBy r = (l ++ k).eraseDupsBy r := by
  induction l using unlike_induction r generalizing m k with
  | nil => rw [List.subset_nil.mp before, List.append_nil]
  | cons b l ih =>
      have later : unlike r b m ⊆ unlike r b l := by
        intro a ha
        obtain ⟨mem, other⟩ := mem_unlike.mp ha
        rcases List.mem_cons.mp (before mem) with rfl | mem'
        · simp [itself a mem] at other
        · exact mem_unlike.mpr ⟨mem', other⟩
      have step := ih later (fun a ha => itself a (mem_unlike.mp ha).1) (unlike r b k)
      simp only [List.cons_append, eraseDupsBy_cons, unlike_append, step]

/-- Equal elements may be dropped before a mapping makes them repeats of each other. -/
theorem eraseDupsBy_flatMap_eraseDups {β : Type} [BEq β] [LawfulBEq β] {r : α → α → Bool}
    {f : β → List α} {l : List β} (itself : ∀ b ∈ l, ∀ a ∈ f b, r a a) :
    (l.eraseDups.flatMap f).eraseDupsBy r = (l.flatMap f).eraseDupsBy r := by
  suffices behind : ∀ k,
      ((l.eraseDups ++ k).flatMap f).eraseDupsBy r = ((l ++ k).flatMap f).eraseDupsBy r by
    simpa using behind []
  induction l using List.reverseRecOn with
  | nil => exact fun k => rfl
  | append_singleton l b ih =>
      intro k
      have before := ih fun c hc => itself c (List.mem_append_left [b] hc)
      by_cases again : b ∈ l
      · have dropped : (l ++ [b]).eraseDups = l.eraseDups := by
          simp [List.eraseDups_append, List.removeAll, again]
        have occurred : f b ⊆ l.flatMap f := fun a ha => List.mem_flatMap.mpr ⟨b, again, ha⟩
        have absorbed := eraseDupsBy_append_append_of_subset occurred
          (itself b (List.mem_append_right l (.head []))) (k.flatMap f)
        rw [dropped, before k]
        simpa using absorbed.symm
      · have kept : (l ++ [b]).eraseDups = l.eraseDups ++ [b] := by
          simp [List.eraseDups_append, List.removeAll, again]
          rfl
        simpa [kept] using before ([b] ++ k)

/-- Where equal images come from equal elements only, lists with the same images are equal. -/
theorem eq_of_map_eq {β : Type} {f g : α → β} {l m : List α} (h : l.map f = m.map g)
    (each : ∀ a ∈ l, ∀ b ∈ m, f a = g b → a = b) : l = m := by
  induction l generalizing m with
  | nil => exact (List.map_eq_nil_iff.mp h.symm).symm
  | cons a l ih =>
      cases m with
      | nil => cases h
      | cons b m =>
          obtain ⟨first, later⟩ := List.cons.inj h
          rw [each a (.head _) b (.head _) first,
            ih later fun a ha b hb => each a (.tail _ ha) b (.tail _ hb)]

/-! ## Sorting by a text -/

section Sorting

variable (key : α → Text)

/-- The elements with this text, in the order in which they come. -/
def withKey (t : Text) (l : List α) : List α :=
  l.filter fun a => key a = t

theorem mem_withKey {t : Text} {l : List α} {a : α} : a ∈ withKey key t l ↔ a ∈ l ∧ key a = t := by
  simp [withKey]

def sorted (l : List α) : List α :=
  l.mergeSort fun a b => Text.notAfter (key a) (key b)

/-- In ascending order of the texts. -/
def Ascending (l : List α) : Prop :=
  l.Pairwise fun a b => Text.notAfter (key a) (key b)

instance (l : List α) : Decidable (Ascending key l) :=
  inferInstanceAs (Decidable (List.Pairwise _ l))

theorem sorted_perm (l : List α) : (sorted key l).Perm l :=
  List.mergeSort_perm l _

private theorem notAfter_by_key_trans (a b c : α) (hab : Text.notAfter (key a) (key b))
    (hbc : Text.notAfter (key b) (key c)) : Text.notAfter (key a) (key c) :=
  Text.notAfter_trans hab hbc

private theorem notAfter_by_key_total (a b : α) :
    Text.notAfter (key a) (key b) || Text.notAfter (key b) (key a) :=
  Text.notAfter_total (key a) (key b)

theorem ascending_sorted (l : List α) : Ascending key (sorted key l) :=
  List.pairwise_mergeSort (notAfter_by_key_trans key) (notAfter_by_key_total key) l

theorem sorted_of_ascending {l : List α} (h : Ascending key l) : sorted key l = l :=
  List.mergeSort_of_pairwise h

/-- Sorting is stable. -/
theorem withKey_sorted (t : Text) (l : List α) : withKey key t (sorted key l) = withKey key t l := by
  have ordered : Ascending key (withKey key t l) := by
    refine List.pairwise_of_forall_mem_list fun a ha b hb => ?_
    rw [((mem_withKey key).mp ha).2, ((mem_withKey key).mp hb).2]
    exact Text.notAfter_refl t
  have kept : (withKey key t l).Sublist (sorted key l) :=
    List.sublist_mergeSort (notAfter_by_key_trans key) (notAfter_by_key_total key) ordered
      List.filter_sublist
  have inside : (withKey key t l).Sublist (withKey key t (sorted key l)) := by
    have := kept.filter fun a => key a = t
    rwa [withKey, List.filter_filter, List.filter_congr (q := fun a => decide (key a = t))
      (by simp)] at this
  exact (inside.eq_of_length ((sorted_perm key l).filter _).length_eq.symm).symm

private theorem eq_of_withKey_eq {l m : List α} (hl : Ascending key l) (hm : Ascending key m)
    (h : ∀ t, withKey key t l = withKey key t m) : l = m := by
  have mem_iff (a : α) : a ∈ l ↔ a ∈ m := by
    have := congrArg (a ∈ ·) (h (key a))
    simpa [mem_withKey] using this
  induction hl generalizing m with
  | nil =>
      cases m with
      | nil => rfl
      | cons b m => simpa using mem_iff b
  | @cons a l first ordered ih =>
      cases hm with
      | nil => simpa using mem_iff a
      | @cons b m firstOther orderedOther =>
          -- Each head stands somewhere in the other list, so neither comes before the other.
          have hba : Text.notAfter (key b) (key a) := by
            rcases List.mem_cons.mp ((mem_iff a).mp (.head l)) with rfl | ha
            · exact Text.notAfter_refl _
            · exact firstOther a ha
          have hab : Text.notAfter (key a) (key b) := by
            rcases List.mem_cons.mp ((mem_iff b).mpr (.head m)) with rfl | hb
            · exact Text.notAfter_refl _
            · exact first b hb
          have sameKey : key a = key b := Text.notAfter_antisymm hab hba
          have heads := h (key a)
          simp only [withKey, List.filter_cons, decide_true, if_true, sameKey,
            List.cons.injEq] at heads
          obtain ⟨rfl, -⟩ := heads
          have tails (t : Text) : withKey key t l = withKey key t m := by
            have := h t
            by_cases hat : key a = t <;> simpa [withKey, hat] using this
          refine congrArg (a :: ·) (ih orderedOther tails fun b => ?_)
          have := congrArg (b ∈ ·) (tails (key b))
          simpa [mem_withKey] using this

/-- Sorting depends only on the elements of each text. -/
theorem sorted_congr {l m : List α} (h : ∀ t, withKey key t l = withKey key t m) :
    sorted key l = sorted key m := by
  refine eq_of_withKey_eq key (ascending_sorted key l) (ascending_sorted key m) fun t => ?_
  rw [withKey_sorted, withKey_sorted, h]

end Sorting

end ChoiceLogic.Selection
