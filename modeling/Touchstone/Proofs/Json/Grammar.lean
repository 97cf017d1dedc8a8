import Mathlib
import Touchstone.Json
import Touchstone.Number.Literal

/-!
# The grammar of documents

A text is cut into tokens: marks, words, numerals and strings, with blanks between them.  The
tokens denote a value: a scalar, or items or fields between brackets.

The grammar is that of JSON as such.  It knows fractions, exponents, escaped surrogate pairs and
the word `null`, which no document of this library has.

## Main definitions

* `Touchstone.Json.Value` : what a document says.
* `Touchstone.Json.Lexed` : the tokens of a text.
* `Touchstone.Json.Denotes` : the value, the items or the fields that tokens denote.
* `Touchstone.Json.Document` : a text is a document that says a value.
-/

namespace Touchstone.Json

open Number (ofDigits)

/-- What a document says. -/
inductive Value where
  | null
  | bool (b : Bool)
  | number (q : ℚ)
  | string (s : String)
  | array (items : List Value)
  | object (fields : List (String × Value))

/-! ### Numerals -/

/-- One or more digits. -/
def IsDigits (text : List Char) : Prop := text ≠ [] ∧ ∀ c ∈ text, c.isDigit

/-- A point and digits, or nothing, with the digits. -/
inductive Fraction : List Char → List Char → Prop
  | absent : Fraction [] []
  | present {digits : List Char} (h : IsDigits digits) : Fraction ('.' :: digits) digits

/-- The sign of an exponent; the plus may be left out. -/
inductive Sign : List Char → Bool → Prop
  | absent : Sign [] false
  | plus : Sign ['+'] false
  | minus : Sign ['-'] true

/-- An exponent, or nothing. -/
inductive Exponent : List Char → ℤ → Prop
  | absent : Exponent [] 0
  | present {e : Char} {sign digits : List Char} {negative : Bool} (he : e = 'e' ∨ e = 'E')
      (hsign : Sign sign negative) (hdigits : IsDigits digits) :
      Exponent (e :: sign ++ digits) (if negative then -ofDigits digits else ofDigits digits)

/-- A number that is not negative.  Its first digit is zero only if it stands alone in front of the
point. -/
inductive Magnitude : List Char → ℚ → Prop
  | mk {whole point fraction exponent : List Char} {e : ℤ} (hwhole : IsDigits whole)
      (hzero : whole.head? = some '0' → whole = ['0']) (hfraction : Fraction point fraction)
      (hexponent : Exponent exponent e) :
      Magnitude (whole ++ point ++ exponent)
        (ofDigits (whole ++ fraction) * 10 ^ (e - fraction.length))

/-- A number. -/
inductive Numeral : List Char → ℚ → Prop
  | positive {text : List Char} {q : ℚ} (h : Magnitude text q) : Numeral text q
  | negative {text : List Char} {q : ℚ} (h : Magnitude text q) : Numeral ('-' :: text) (-q)

/-- The characters that numerals are made of. -/
def isNumeric (c : Char) : Bool := c.isDigit || c ∈ ['+', '-', '.', 'e', 'E']

/-! ### Strings -/

/-- The letters that stand for a character behind a backslash. -/
def letters : List (Char × Char) :=
  [('"', '"'), ('\\', '\\'), ('/', '/'), ('b', '\x08'), ('f', '\x0c'), ('n', '\n'), ('r', '\r'),
    ('t', '\t')]

/-- The value of a hexadecimal digit. -/
def hexValue? (c : Char) : Option ℕ :=
  if '0' ≤ c ∧ c ≤ '9' then some (c.toNat - '0'.toNat)
  else if 'a' ≤ c ∧ c ≤ 'f' then some (c.toNat - 'a'.toNat + 10)
  else if 'A' ≤ c ∧ c ≤ 'F' then some (c.toNat - 'A'.toNat + 10)
  else none

/-- The number of four hexadecimal digits. -/
def unit? (a b c d : Char) : Option ℕ := do
  let a ← hexValue? a
  let b ← hexValue? b
  let c ← hexValue? c
  let d ← hexValue? d
  return ((a * 16 + b) * 16 + c) * 16 + d

/-- The character that a surrogate pair stands for. -/
def paired (high low : ℕ) : Char :=
  Char.ofNat (0x10000 + (high - 0xD800) * 0x400 + (low - 0xDC00))

/-- A character as it stands in a string. -/
inductive CharText : List Char → Char → Prop
  | plain {c : Char} (control : 0x20 ≤ c.toNat) (quote : c ≠ '"') (backslash : c ≠ '\\') :
      CharText [c] c
  | letter {e c : Char} (h : (e, c) ∈ letters) : CharText ['\\', e] c
  | unit {a b c d : Char} {n : ℕ} (h : unit? a b c d = some n) (valid : n.isValidChar) :
      CharText ['\\', 'u', a, b, c, d] (Char.ofNat n)
  | pair {a b c d a' b' c' d' : Char} {m n : ℕ} (h : unit? a b c d = some m)
      (h' : unit? a' b' c' d' = some n) (high : 0xD800 ≤ m ∧ m < 0xDC00)
      (low : 0xDC00 ≤ n ∧ n < 0xE000) :
      CharText ['\\', 'u', a, b, c, d, '\\', 'u', a', b', c', d'] (paired m n)

/-- The characters of a string as they stand between its quotes. -/
inductive StringText : List Char → List Char → Prop
  | nil : StringText [] []
  | cons {text text' : List Char} {c : Char} {s : List Char} (hc : CharText text c)
      (hs : StringText text' s) : StringText (text ++ text') (c :: s)

/-! ### Tokens -/

/-- A token. -/
inductive Token where
  /-- A bracket, a comma or a colon. -/
  | mark (c : Char)
  /-- A string. -/
  | string (s : String)
  /-- A word or a numeral. -/
  | scalar (v : Value)

/-- The characters that are tokens. -/
def marks : List Char := ['[', ']', '{', '}', ',', ':']

/-- The characters between tokens. -/
def blanks : List Char := [' ', '\t', '\n', '\r']

/-- The words. -/
def words : List (List Char × Value) :=
  [("null".toList, .null), ("true".toList, .bool true), ("false".toList, .bool false)]

/-- A text begins with a token, which the given text follows.  A numeral goes on as long as numeric
characters follow. -/
inductive Begins : List Char → Token → List Char → Prop
  | mark {c : Char} {text : List Char} (hc : c ∈ marks) : Begins (c :: text) (.mark c) text
  | word {word text : List Char} {v : Value} (hword : (word, v) ∈ words) :
      Begins (word ++ text) (.scalar v) text
  | numeral {numeral text : List Char} {q : ℚ} (hnumeral : Numeral numeral q)
      (hend : ∀ c ∈ text.head?, ¬isNumeric c) :
      Begins (numeral ++ text) (.scalar (.number q)) text
  | string {inner text s : List Char} (hinner : StringText inner s) :
      Begins ('"' :: (inner ++ '"' :: text)) (.string (String.ofList s)) text

/-- The tokens of a text. -/
inductive Lexed : List Char → List Token → Prop
  | nil : Lexed [] []
  | blank {c : Char} {text : List Char} {ts : List Token} (hc : c ∈ blanks) (h : Lexed text ts) :
      Lexed (c :: text) ts
  | token {text rest : List Char} {t : Token} {ts : List Token} (ht : Begins text t rest)
      (h : Lexed rest ts) : Lexed text (t :: ts)

/-! ### Values -/

/-- What tokens may denote. -/
inductive Form where
  | value (v : Value)
  | items (vs : List Value)
  | fields (fs : List (String × Value))

/-- What tokens denote.  Items and fields are one or more, with commas between them. -/
inductive Denotes : List Token → Form → Prop
  | scalar (v : Value) : Denotes [.scalar v] (.value v)
  | string (s : String) : Denotes [.string s] (.value (.string s))
  | emptyArray : Denotes [.mark '[', .mark ']'] (.value (.array []))
  | array {ts : List Token} {vs : List Value} (h : Denotes ts (.items vs)) :
      Denotes (.mark '[' :: ts ++ [.mark ']']) (.value (.array vs))
  | emptyObject : Denotes [.mark '{', .mark '}'] (.value (.object []))
  | object {ts : List Token} {fs : List (String × Value)} (h : Denotes ts (.fields fs)) :
      Denotes (.mark '{' :: ts ++ [.mark '}']) (.value (.object fs))
  | lastItem {ts : List Token} {v : Value} (h : Denotes ts (.value v)) : Denotes ts (.items [v])
  | item {ts us : List Token} {v : Value} {vs : List Value} (h : Denotes ts (.value v))
      (hs : Denotes us (.items vs)) : Denotes (ts ++ .mark ',' :: us) (.items (v :: vs))
  | lastField (key : String) {ts : List Token} {v : Value} (h : Denotes ts (.value v)) :
      Denotes (.string key :: .mark ':' :: ts) (.fields [(key, v)])
  | field (key : String) {ts us : List Token} {v : Value} {fs : List (String × Value)}
      (h : Denotes ts (.value v)) (hs : Denotes us (.fields fs)) :
      Denotes (.string key :: .mark ':' :: ts ++ .mark ',' :: us) (.fields ((key, v) :: fs))

/-- A text is a document that says a value. -/
def Document (text : List Char) (v : Value) : Prop :=
  ∃ ts, Lexed text ts ∧ Denotes ts (.value v)

end Touchstone.Json
