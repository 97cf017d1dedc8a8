/-!
# JSON documents

A document is a value made of truth values, natural numbers, strings, arrays and objects.  It is
written over several lines, with two blanks of indentation for each level, and without a line feed
at the end.

In a string, quotes, backslashes and control characters are escaped, the five common control
characters by a letter and the others by four hexadecimal digits.  All other characters stand for
themselves.

## Main definitions

* `Touchstone.Json` : a document.
* `Touchstone.Json.quoted` : a string as it is written.
* `Touchstone.Json.pretty` : a document as it is written.
-/

namespace Touchstone

/-- A JSON document. -/
inductive Json where
  /-- A truth value. -/
  | bool (b : Bool)
  /-- A natural number. -/
  | number (n : Nat)
  /-- A string. -/
  | string (s : String)
  /-- A list of documents. -/
  | array (items : List Json)
  /-- A list of documents with keys, in order. -/
  | object (fields : List (String × Json))
  deriving Repr

namespace Json

/-! ### Strings -/

/-- A hexadecimal digit. -/
def hexDigit (n : Nat) : Char := Nat.digitChar (n % 16)

/-- A character inside a written string. -/
def escaped (c : Char) : List Char :=
  match c with
  | '"' => ['\\', '"']
  | '\\' => ['\\', '\\']
  | '\x08' => ['\\', 'b']
  | '\x0c' => ['\\', 'f']
  | '\n' => ['\\', 'n']
  | '\r' => ['\\', 'r']
  | '\t' => ['\\', 't']
  | c =>
    if c.toNat < 0x20 then ['\\', 'u', '0', '0', hexDigit (c.toNat / 16), hexDigit c.toNat]
    else [c]

/-- A string as it is written. -/
def quoted (s : String) : List Char := '"' :: s.toList.flatMap escaped ++ ['"']

/-! ### Documents -/

/-- A new line at a level of indentation. -/
def newLine (level : Nat) : List Char := '\n' :: List.replicate (2 * level) ' '

mutual

/-- A document as it is written at a level of indentation. -/
def written (level : Nat) : Json → List Char
  | .bool b => (if b then "true" else "false").toList
  | .number n => (toString n).toList
  | .string s => quoted s
  | .array [] => ['[', ']']
  | .array (item :: items) =>
    '[' :: newLine (level + 1) ++ written (level + 1) item ++ writtenItems (level + 1) items ++
      newLine level ++ [']']
  | .object [] => ['{', '}']
  | .object (field :: fields) =>
    '{' :: newLine (level + 1) ++ writtenField (level + 1) field ++
      writtenFields (level + 1) fields ++ newLine level ++ ['}']

/-- The items after the first one. -/
def writtenItems (level : Nat) : List Json → List Char
  | [] => []
  | item :: items => ',' :: newLine level ++ written level item ++ writtenItems level items

/-- A document with its key. -/
def writtenField (level : Nat) : String × Json → List Char
  | (key, value) => quoted key ++ [':', ' '] ++ written level value

/-- The fields after the first one. -/
def writtenFields (level : Nat) : List (String × Json) → List Char
  | [] => []
  | field :: fields =>
    ',' :: newLine level ++ writtenField level field ++ writtenFields level fields

end

/-- A document as it is written. -/
def pretty (j : Json) : String := String.ofList (written 0 j)

end Json

end Touchstone
