/-!
# White space and trimming

A character is blank if it has the Unicode property `White_Space`.  Texts are compared without the
blank characters at their ends, and the captured error stream is shown without those at its end.

## Main definitions

* `Touchstone.Text.isBlank` : the property `White_Space`.
* `Touchstone.Text.trim` : a text without the blank characters at both ends.
* `Touchstone.Text.trimEnd` : a text without the blank characters at its end.
-/

namespace Touchstone.Text

/-- The blank characters, as inclusive ranges of code points in increasing order. -/
def blankRanges : List (Nat × Nat) :=
  [(0x0009, 0x000D), (0x0020, 0x0020), (0x0085, 0x0085), (0x00A0, 0x00A0), (0x1680, 0x1680),
    (0x2000, 0x200A), (0x2028, 0x2029), (0x202F, 0x202F), (0x205F, 0x205F), (0x3000, 0x3000)]

/-- A character is blank if its code point lies in one of the blank ranges. -/
def isBlank (c : Char) : Bool :=
  blankRanges.any fun range => range.1 ≤ c.toNat && c.toNat ≤ range.2

/-- The text without the blank characters at its start. -/
def trimStart (text : List Char) : List Char :=
  text.dropWhile isBlank

/-- The text without the blank characters at its end. -/
def trimEnd (text : List Char) : List Char :=
  (text.reverse.dropWhile isBlank).reverse

/-- The text without the blank characters at its ends. -/
def trim (text : List Char) : List Char :=
  trimEnd (trimStart text)

end Touchstone.Text
