import ChoiceLogic.Text.Basic

/-! # JSON values

A JSON text is cut into lexemes, and the lexemes are put together on a stack of the arrays and
objects that are still open. Both passes go over their input once, so depth of nesting is not
limited.
-/

namespace ChoiceLogic

/-- A JSON string: code points, and surrogates without a partner, which JSON can write although
they are no characters. -/
abbrev JsonString := List Nat

inductive Json where
  | null
  | bool (b : Bool)
  /-- A number, as it is written. -/
  | number (written : Text)
  | string (s : JsonString)
  | array (elements : List Json)
  /-- Members in the order in which they are written, repeated names included. -/
  | object (members : List (JsonString × Json))

/-- The text that a JSON string stands for, if it holds no lone surrogate. -/
def JsonString.text? (s : JsonString) : Option Text :=
  s.mapM fun point => if point.isValidChar then some (Char.ofNat point) else none

namespace Json

inductive Lexeme where
  | punctuation (c : Char)
  /-- Anything that is neither punctuation nor a string. -/
  | word (t : Text)
  | string (s : JsonString)

/-- What the characters before a place in a JSON text leave unfinished. The newest character or
code point comes first. -/
inductive Unfinished where
  | nothing
  | word (rev : Text)
  | string (rev : JsonString)
  | escape (rev : JsonString)
  /-- An escape by number, with the digits that are missing and the value of the others. -/
  | digits (rev : JsonString) (missing value : Nat)

def isSpace (c : Char) : Bool :=
  c == ' ' || c == '\t' || c == '\n' || c == '\r'

def isPunctuation (c : Char) : Bool :=
  c == '[' || c == ']' || c == '\x7b' || c == '\x7d' || c == ',' || c == ':'

/-- Adds a code unit; a high and a low surrogate in a row become one code point. -/
def addUnit (rev : JsonString) (unit : Nat) : JsonString :=
  match rev with
  | [] => [unit]
  | high :: rest =>
    if 0xD800 ≤ high ∧ high < 0xDC00 ∧ 0xDC00 ≤ unit ∧ unit < 0xE000 then
      (0x10000 + (high - 0xD800) * 0x400 + (unit - 0xDC00)) :: rest
    else unit :: rev

/-- The character that a letter behind a backslash stands for. -/
def unescape? : Char → Option Char
  | '"' => some '"'
  | '\\' => some '\\'
  | '/' => some '/'
  | 'b' => some '\x08'
  | 'f' => some '\x0c'
  | 'n' => some '\n'
  | 'r' => some '\r'
  | 't' => some '\t'
  | _ => none

def hexValue? (c : Char) : Option Nat :=
  if '0' ≤ c ∧ c ≤ '9' then some (c.toNat - '0'.toNat)
  else if 'a' ≤ c ∧ c ≤ 'f' then some (c.toNat - 'a'.toNat + 10)
  else if 'A' ≤ c ∧ c ≤ 'F' then some (c.toNat - 'A'.toNat + 10)
  else none

/-- A character where nothing is unfinished. -/
def lexFresh (done : List Lexeme) (c : Char) : Unfinished × List Lexeme :=
  if isSpace c then (.nothing, done)
  else if c == '"' then (.string [], done)
  else if isPunctuation c then (.nothing, .punctuation c :: done)
  else (.word [c], done)

def lexStep : Unfinished × List Lexeme → Char → Option (Unfinished × List Lexeme)
  | (.nothing, done), c => some (lexFresh done c)
  | (.word rev, done), c =>
    if isSpace c || c == '"' || isPunctuation c then some (lexFresh (.word rev.reverse :: done) c)
    else some (.word (c :: rev), done)
  | (.string rev, done), c =>
    if c == '"' then some (.nothing, .string rev.reverse :: done)
    else if c == '\\' then some (.escape rev, done)
    else if c.toNat < 0x20 then none
    else some (.string (c.toNat :: rev), done)
  | (.escape rev, done), c =>
    if c == 'u' then some (.digits rev 4 0, done)
    else (unescape? c).map fun d => (.string (d.toNat :: rev), done)
  | (.digits rev missing value, done), c =>
    (hexValue? c).map fun d =>
      if missing ≤ 1 then (.string (addUnit rev (value * 16 + d)), done)
      else (.digits rev (missing - 1) (value * 16 + d), done)

/-- The lexemes of a JSON text. -/
def lex? (t : Text) : Option (List Lexeme) :=
  match t.foldlM lexStep (.nothing, []) with
  | some (.nothing, done) => some done.reverse
  | some (.word rev, done) => some (.word rev.reverse :: done).reverse
  | _ => none

/-- An integer part without useless zeros, perhaps a fraction, perhaps an exponent. -/
def isNumber (t : Text) : Bool :=
  let unsigned := if t.head? = some '-' then t.drop 1 else t
  let (whole, rest) := unsigned.span Char.isDigit
  let (fraction, rest) :=
    if rest.head? = some '.' then (rest.drop 1).span Char.isDigit else (['0'], rest)
  let exponent :=
    if rest.head? = some 'e' ∨ rest.head? = some 'E' then
      let rest := rest.drop 1
      if rest.head? = some '+' ∨ rest.head? = some '-' then rest.drop 1 else rest
    else '0' :: rest
  (whole == ['0'] || (whole != [] && whole.head? != some '0')) && fraction != [] &&
    exponent != [] && exponent.all Char.isDigit

def ofWord? (t : Text) : Option Json :=
  if t = "null".toList then some .null
  else if t = "true".toList then some (.bool true)
  else if t = "false".toList then some (.bool false)
  else if isNumber t then some (.number t)
  else none

/-- An array or object that is still open, its newest element or member first. -/
inductive Open where
  | array (rev : List Json)
  | object (rev : List (JsonString × Json))
  /-- An object and the name of the member whose value comes next. -/
  | member (rev : List (JsonString × Json)) (name : JsonString)

/-- What has to come next. -/
inductive Expected where
  | value
  | valueOrEnd
  | name
  | nameOrEnd
  | colon
  /-- Whatever may stand behind the value that has just been read. -/
  | behind (v : Json)

def beginValue (stack : List Open) : Lexeme → Option (Expected × List Open)
  | .punctuation '[' => some (.valueOrEnd, .array [] :: stack)
  | .punctuation '\x7b' => some (.nameOrEnd, .object [] :: stack)
  | .punctuation _ => none
  | .word t => (ofWord? t).map fun v => (.behind v, stack)
  | .string s => some (.behind (.string s), stack)

def assembleStep : Expected × List Open → Lexeme → Option (Expected × List Open)
  | (.valueOrEnd, .array [] :: stack), .punctuation ']' => some (.behind (.array []), stack)
  | (.value, stack), lexeme | (.valueOrEnd, stack), lexeme => beginValue stack lexeme
  | (.nameOrEnd, .object [] :: stack), .punctuation '\x7d' => some (.behind (.object []), stack)
  | (.name, .object rev :: stack), .string s | (.nameOrEnd, .object rev :: stack), .string s =>
    some (.colon, .member rev s :: stack)
  | (.colon, stack), .punctuation ':' => some (.value, stack)
  | (.behind v, .array rev :: stack), .punctuation ',' => some (.value, .array (v :: rev) :: stack)
  | (.behind v, .array rev :: stack), .punctuation ']' =>
    some (.behind (.array (v :: rev).reverse), stack)
  | (.behind v, .member rev name :: stack), .punctuation ',' =>
    some (.name, .object ((name, v) :: rev) :: stack)
  | (.behind v, .member rev name :: stack), .punctuation '\x7d' =>
    some (.behind (.object ((name, v) :: rev).reverse), stack)
  | _, _ => none

/-- The value of a JSON text, which has to be exactly one. -/
def ofText? (t : Text) : Option Json := do
  let lexemes ← lex? t
  match ← lexemes.foldlM assembleStep (.value, []) with
  | (.behind v, []) => some v
  | _ => none

end Json

end ChoiceLogic
