/-! # Text

Text is a list of characters. It is ordered by its first difference, and characters are ordered by
code point, which is also the order of their UTF-8 encodings.
-/

namespace ChoiceLogic

/-- Text that is read or written, one element per code point. -/
abbrev Text := List Char

namespace Text

/-- Number of bytes of the UTF-8 encoding. -/
def byteSize (t : Text) : Nat :=
  t.foldr (fun c size => c.utf8Size + size) 0

@[simp] theorem byteSize_nil : byteSize [] = 0 := rfl

@[simp] theorem byteSize_cons (c : Char) (t : Text) :
    byteSize (c :: t) = c.utf8Size + byteSize t := rfl

@[simp] theorem byteSize_append (s t : Text) : byteSize (s ++ t) = byteSize s + byteSize t := by
  induction s with
  | nil => simp
  | cons c s ih => simp [ih, Nat.add_assoc]

theorem length_le_byteSize (t : Text) : t.length ≤ byteSize t := by
  induction t with
  | nil => simp
  | cons c t ih =>
    have pos := c.utf8Size_pos
    simp only [List.length_cons, byteSize_cons]
    omega

/-- The bytes of the UTF-8 encoding. -/
def utf8 (t : Text) : List UInt8 :=
  t.flatMap String.utf8EncodeChar

/-- The first text is the second or comes before it. A text comes before its continuations. -/
def notAfter : Text → Text → Bool
  | [], _ => true
  | _ :: _, [] => false
  | c :: s, d :: t => if c = d then notAfter s t else c < d

theorem notAfter_total (s t : Text) : notAfter s t || notAfter t s := by
  induction s generalizing t with
  | nil => rfl
  | cons c s ih =>
    cases t with
    | nil => rfl
    | cons d t =>
      by_cases h : c = d
      · simpa [notAfter, h] using ih t
      · simp only [notAfter, h, Ne.symm h, if_false, Bool.or_eq_true, decide_eq_true_eq]
        grind

theorem notAfter_refl (t : Text) : notAfter t t := by
  simpa using notAfter_total t t

theorem notAfter_trans {s t u : Text} (hst : notAfter s t) (htu : notAfter t u) :
    notAfter s u := by
  induction s generalizing t u with
  | nil => rfl
  | cons c s ih =>
    cases t with
    | nil => cases hst
    | cons d t =>
      cases u with
      | nil => cases htu
      | cons e u =>
        simp only [notAfter] at hst htu ⊢
        grind

theorem notAfter_antisymm {s t : Text} (hst : notAfter s t) (hts : notAfter t s) : s = t := by
  induction s generalizing t with
  | nil =>
    cases t with
    | nil => rfl
    | cons => cases hts
  | cons c s ih =>
    cases t with
    | nil => cases hst
    | cons d t =>
      simp only [notAfter] at hst hts
      grind

/-- Each of the texts once, in ascending order. -/
def sortDistinct (ts : List Text) : List Text :=
  ts.eraseDups.mergeSort notAfter

theorem mem_sortDistinct {t : Text} {ts : List Text} : t ∈ sortDistinct ts ↔ t ∈ ts := by
  simp [sortDistinct]

/-- Decimal digits of a number. -/
def ofNat (n : Nat) : Text :=
  Nat.toDigits 10 n

end Text

end ChoiceLogic
