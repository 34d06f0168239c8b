import ChoiceLogic.Text.Basic
import Mathlib.Data.List.Lex

/-! # The order of bytes

UTF-8 keeps the order of texts: the bytes of two texts compare as their characters do. A character with
a longer encoding has a greater first byte, and among characters with encodings of one length the first
byte that differs decides. So no two texts have the same bytes.
-/

namespace ChoiceLogic.Text

/-- One list of bytes comes before another: at the first difference, or by ending first. -/
def BytesBefore (s t : List UInt8) : Prop :=
  List.Lex (· < ·) s t

theorem not_bytesBefore_self (s : List UInt8) : ¬ BytesBefore s s :=
  List.lex_irrefl UInt8.lt_irrefl s

theorem BytesBefore.asymm {s t : List UInt8} (h : BytesBefore s t) : ¬ BytesBefore t s :=
  List.lex_asymm UInt8.lt_asymm h

theorem bytesBefore_cons {m n : Nat} {s t : List UInt8} (hm : m < 256) (hn : n < 256) (le : m ≤ n)
    (rest : m = n → BytesBefore s t) : BytesBefore (UInt8.ofNat m :: s) (UInt8.ofNat n :: t) := by
  by_cases same : m = n
  · exact same ▸ List.Lex.cons (rest same)
  · refine List.Lex.rel (UInt8.lt_iff_toNat_lt.mpr ?_)
    rw [UInt8.toNat_ofNat', UInt8.toNat_ofNat', Nat.mod_eq_of_lt hm, Nat.mod_eq_of_lt hn]
    omega

/-! ## One character -/

section OneCharacter

variable {c d : Char}

/-- Of a number that is small enough nothing is cut off. -/
private theorem mod_add_comm {n size : Nat} (small : n < size) (k : Nat) : n % size + k = k + n := by
  rw [Nat.mod_eq_of_lt small, Nat.add_comm]

private theorem follow_comm (n : Nat) : n % 64 + 128 = 128 + n % 64 :=
  Nat.add_comm ..

theorem utf8EncodeChar_of_lt_128 (h : c.toNat < 128) :
    String.utf8EncodeChar c = [UInt8.ofNat c.toNat] :=
  if_pos (Nat.le_of_lt_succ h)

theorem utf8EncodeChar_of_lt_2048 (low : ¬ c.toNat < 128) (h : c.toNat < 2048) :
    String.utf8EncodeChar c =
      [UInt8.ofNat (192 + c.toNat / 64), UInt8.ofNat (128 + c.toNat % 64)] := by
  simp only [String.utf8EncodeChar, Char.toNat_val, follow_comm]
  rw [if_neg (by omega), if_pos (by omega), mod_add_comm (by omega)]

theorem utf8EncodeChar_of_lt_65536 (low : ¬ c.toNat < 2048) (h : c.toNat < 65536) :
    String.utf8EncodeChar c =
      [UInt8.ofNat (224 + c.toNat / 4096), UInt8.ofNat (128 + c.toNat / 64 % 64),
        UInt8.ofNat (128 + c.toNat % 64)] := by
  simp only [String.utf8EncodeChar, Char.toNat_val, follow_comm]
  rw [if_neg (by omega), if_neg (by omega), if_pos (by omega), mod_add_comm (by omega)]

theorem toNat_lt_1114112 (c : Char) : c.toNat < 1114112 := by
  rcases c.valid with low | ⟨-, high⟩
  · exact Nat.lt_trans low (by decide)
  · exact high

theorem utf8EncodeChar_of_not_lt (low : ¬ c.toNat < 65536) :
    String.utf8EncodeChar c =
      [UInt8.ofNat (240 + c.toNat / 262144), UInt8.ofNat (128 + c.toNat / 4096 % 64),
        UInt8.ofNat (128 + c.toNat / 64 % 64), UInt8.ofNat (128 + c.toNat % 64)] := by
  have high := toNat_lt_1114112 c
  simp only [String.utf8EncodeChar, Char.toNat_val, follow_comm]
  rw [if_neg (by omega), if_neg (by omega), if_neg (by omega), mod_add_comm (by omega)]

/-- The first byte tells how long the encoding is. -/
theorem exists_first_byte (c : Char) : ∃ n rest, String.utf8EncodeChar c = UInt8.ofNat n :: rest ∧
    n < 256 ∧ (c.toNat < 128 ↔ n < 192) ∧ (c.toNat < 2048 ↔ n < 224) ∧ (c.toNat < 65536 ↔ n < 240) := by
  have high := toNat_lt_1114112 c
  by_cases one : c.toNat < 128
  · exact ⟨_, _, utf8EncodeChar_of_lt_128 one, by omega, by omega, by omega, by omega⟩
  · by_cases two : c.toNat < 2048
    · exact ⟨_, _, utf8EncodeChar_of_lt_2048 one two, by omega, by omega, by omega, by omega⟩
    · by_cases three : c.toNat < 65536
      · exact ⟨_, _, utf8EncodeChar_of_lt_65536 two three, by omega, by omega, by omega, by omega⟩
      · exact ⟨_, _, utf8EncodeChar_of_not_lt three, by omega, by omega, by omega, by omega⟩

variable (s t : List UInt8)

theorem bytesBefore_of_longer {bound : Nat} (bounds : bound = 128 ∨ bound = 2048 ∨ bound = 65536)
    (hc : c.toNat < bound) (hd : ¬ d.toNat < bound) :
    BytesBefore (String.utf8EncodeChar c ++ s) (String.utf8EncodeChar d ++ t) := by
  obtain ⟨m, before, hm, small, one, two, three⟩ := exists_first_byte c
  obtain ⟨n, behind, hn, small', one', two', three'⟩ := exists_first_byte d
  rw [hm, hn]
  exact bytesBefore_cons small small' (by omega) fun same => by omega

theorem bytesBefore_utf8EncodeChar (h : c.toNat < d.toNat) :
    BytesBefore (String.utf8EncodeChar c ++ s) (String.utf8EncodeChar d ++ t) := by
  have highC := toNat_lt_1114112 c
  have highD := toNat_lt_1114112 d
  by_cases one : c.toNat < 128
  · by_cases one' : d.toNat < 128
    · rw [utf8EncodeChar_of_lt_128 one, utf8EncodeChar_of_lt_128 one']
      exact bytesBefore_cons (by omega) (by omega) (by omega) fun first => by omega
    · exact bytesBefore_of_longer s t (.inl rfl) one one'
  · by_cases two : c.toNat < 2048
    · by_cases two' : d.toNat < 2048
      · rw [utf8EncodeChar_of_lt_2048 one two, utf8EncodeChar_of_lt_2048 (by omega) two']
        refine bytesBefore_cons (by omega) (by omega) (by omega) fun first => ?_
        exact bytesBefore_cons (by omega) (by omega) (by omega) fun second => by omega
      · exact bytesBefore_of_longer s t (.inr (.inl rfl)) two two'
    · by_cases three : c.toNat < 65536
      · by_cases three' : d.toNat < 65536
        · rw [utf8EncodeChar_of_lt_65536 two three, utf8EncodeChar_of_lt_65536 (by omega) three']
          refine bytesBefore_cons (by omega) (by omega) (by omega) fun first => ?_
          refine bytesBefore_cons (by omega) (by omega) (by omega) fun second => ?_
          exact bytesBefore_cons (by omega) (by omega) (by omega) fun third => by omega
        · exact bytesBefore_of_longer s t (.inr (.inr rfl)) three three'
      · rw [utf8EncodeChar_of_not_lt three, utf8EncodeChar_of_not_lt (by omega)]
        refine bytesBefore_cons (by omega) (by omega) (by omega) fun first => ?_
        refine bytesBefore_cons (by omega) (by omega) (by omega) fun second => ?_
        refine bytesBefore_cons (by omega) (by omega) (by omega) fun third => ?_
        exact bytesBefore_cons (by omega) (by omega) (by omega) fun fourth => by omega

end OneCharacter

/-! ## Texts -/

theorem utf8_cons (c : Char) (t : Text) : utf8 (c :: t) = String.utf8EncodeChar c ++ utf8 t :=
  List.flatMap_cons

theorem bytesBefore_of_not_notAfter {s t : Text} (h : notAfter t s = false) :
    BytesBefore (utf8 s) (utf8 t) := by
  induction t generalizing s with
  | nil => cases h
  | cons d t ih =>
      obtain ⟨n, rest, first, -⟩ := exists_first_byte d
      cases s with
      | nil =>
          rw [utf8_cons, first]
          exact List.Lex.nil
      | cons c s =>
          rw [utf8_cons, utf8_cons]
          by_cases same : d = c
          · subst same
            exact List.Lex.append_left _ (ih (by simpa [notAfter] using h)) _
          · have after : ¬ d < c := by simpa [notAfter, same] using h
            refine bytesBefore_utf8EncodeChar _ _ (Nat.lt_of_le_of_ne (Nat.le_of_not_lt after) ?_)
            exact fun equal => same (Char.toNat_inj.mp equal).symm

/-- Texts are in the order of their bytes. -/
theorem notAfter_iff (s t : Text) : notAfter s t ↔ ¬ BytesBefore (utf8 t) (utf8 s) := by
  constructor
  · intro hst
    cases hts : notAfter t s with
    | true => exact notAfter_antisymm hst hts ▸ not_bytesBefore_self _
    | false => exact (bytesBefore_of_not_notAfter hts).asymm
  · intro h
    cases hst : notAfter s t with
    | true => rfl
    | false => exact absurd (bytesBefore_of_not_notAfter hst) h

/-- Texts with the same bytes are the same. -/
theorem utf8_injective {s t : Text} (h : utf8 s = utf8 t) : s = t := by
  have within (u v : Text) (same : utf8 u = utf8 v) : notAfter u v :=
    (notAfter_iff u v).mpr (same ▸ not_bytesBefore_self _)
  exact notAfter_antisymm (within s t h) (within t s h.symm)

end ChoiceLogic.Text
