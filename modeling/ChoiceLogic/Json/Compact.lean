import ChoiceLogic.Digest.Sha256
import ChoiceLogic.Expression.Basic

/-! # Compact JSON and keys

JSON without blanks between its tokens. In a string the quote, the backslash and the control
characters below U+0020 are escaped, by one letter where JSON has one for them, and every other
character stands as it is.

The key of an expression is the SHA-256 of its encoding in this form, with the members of objects in
alphabetical order. Equal expressions have equal keys. Two expressions with one canonical text need
not be equal, and then their encodings differ.
-/

namespace ChoiceLogic.Json.Compact

/-- The letter that follows the backslash in a short escape. -/
def shortEscape? : Char → Option Char
  | '"' => some '"'
  | '\\' => some '\\'
  | '\x08' => some 'b'
  | '\x0c' => some 'f'
  | '\n' => some 'n'
  | '\r' => some 'r'
  | '\t' => some 't'
  | _ => none

def escape (c : Char) : Text :=
  match shortEscape? c with
  | some letter => ['\\', letter]
  | none =>
    if c.toNat < 0x20 then
      ['\\', 'u', '0', '0', Nat.digitChar (c.toNat / 16), Nat.digitChar (c.toNat % 16)]
    else [c]

/-- The literal of a string. -/
def literal (t : Text) : Text :=
  '"' :: (t.flatMap escape ++ ['"'])

/-- The array of these elements, each given as JSON. -/
def array (elements : List Text) : Text :=
  '[' :: ([','].intercalate elements ++ [']'])

/-- The object with these members in this order, each value given as JSON. -/
def object (members : List (String × Text)) : Text :=
  '\x7b' :: ([','].intercalate (members.map fun (name, value) =>
    literal name.toList ++ ':' :: value) ++ ['\x7d'])

end ChoiceLogic.Json.Compact

namespace ChoiceLogic.Expression

open Json.Compact

mutual
/-- The JSON encoding. A blank is a string; the other kinds are objects with one member, which is
named for the kind. -/
def encode : Expression → Text
  | .blank => literal "Blank".toList
  | .assignment a =>
    object [("Assignment", object [("family", literal a.family), ("value", literal a.value)])]
  | .operation op operands =>
    object [("Operation",
      object [("children", array (encodeAll operands)), ("operator", literal op.name)])]

def encodeAll : List Expression → List Text
  | [] => []
  | e :: rest => encode e :: encodeAll rest
end

/-- Lowercase hexadecimal digits of the hash of the encoding. -/
def key (e : Expression) : Text :=
  Digest.sha256Digits (Text.utf8 e.encode)

end ChoiceLogic.Expression
