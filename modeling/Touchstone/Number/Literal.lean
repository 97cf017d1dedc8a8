import Touchstone.Number.Binary64

/-!
# Decimal literals

A literal is an optional sign, then digits with an optional point, then an optional exponent.  At
least one digit stands before or after the point, and the exponent has at least one digit.  The
words `inf`, `infinity` and `nan`, in capitals or not, are read as well.

A literal denotes a rational number.  Its binary value is the binary number of 64 bits nearest to
that.

## Main definitions

* `Touchstone.Number.Literal` : a literal by its sign, digits and exponent.
* `Touchstone.Number.Reading` : what a text can be read as.
* `Touchstone.Number.read?` : read a text.
* `Touchstone.Number.Literal.magnitude?` : the binary value without its sign.
-/

namespace Touchstone.Number

/-- A decimal literal, which denotes `± digits * 10 ^ exponent`. -/
structure Literal where
  /-- The sign is a minus. -/
  negative : Bool
  /-- The digits as a number, without the point. -/
  digits : Nat
  /-- The power of ten of the last digit. -/
  exponent : Int
  deriving DecidableEq, Repr

/-- What a text can be read as. -/
inductive Reading where
  /-- A finite number. -/
  | finite (literal : Literal)
  /-- An infinity or no number, which have no finite value. -/
  | special
  deriving DecidableEq, Repr

/-! ### Reading -/

/-- The value of a digit. -/
def digit (c : Char) : Nat := c.toNat - '0'.toNat

/-- The number with the given digits. -/
def ofDigits (digits : List Char) : Nat :=
  digits.foldl (fun n c => 10 * n + digit c) 0

/-- The sign of a number in front of a text, and the text after it. -/
def splitSign : List Char → Bool × List Char
  | '-' :: rest => (true, rest)
  | '+' :: rest => (false, rest)
  | rest => (false, rest)

/-- The exponent that a text consists of; no text is the exponent zero. -/
def exponent? : List Char → Option Int
  | [] => some 0
  | c :: rest =>
    let (negative, digits) := splitSign rest
    if c.toLower = 'e' ∧ ¬digits.isEmpty ∧ digits.all Char.isDigit then
      some (if negative then -(ofDigits digits : Int) else ofDigits digits)
    else none

/-- The literal without its sign that a text consists of. -/
def unsigned? (negative : Bool) (text : List Char) : Option Literal :=
  let whole := text.takeWhile Char.isDigit
  let afterWhole := text.dropWhile Char.isDigit
  let afterPoint := if afterWhole.head? = some '.' then afterWhole.tail else []
  let fraction := afterPoint.takeWhile Char.isDigit
  let afterNumber :=
    if afterWhole.head? = some '.' then afterPoint.dropWhile Char.isDigit else afterWhole
  if whole.isEmpty ∧ fraction.isEmpty then none
  else
    (exponent? afterNumber).map fun exponent =>
      ⟨negative, ofDigits (whole ++ fraction), exponent - fraction.length⟩

/-- The words for values that are not finite. -/
def specialWords : List String := ["inf", "infinity", "nan"]

/-- Read a text as a number. -/
def read? (text : List Char) : Option Reading :=
  let (negative, rest) := splitSign text
  if specialWords.any fun word => word.toList = rest.map Char.toLower then some .special
  else (unsigned? negative rest).map .finite

/-! ### Value -/

/-- The number of decimal digits of a number; zero has none. -/
def digitCount (n : Nat) : Nat :=
  if n = 0 then 0 else (Nat.toDigits 10 n).length

namespace Literal

/-- The value without its sign as a quotient. -/
def quotient (l : Literal) : Nat × Nat :=
  match l.exponent with
  | .ofNat e => (l.digits * Nat.pow 10 e, 1)
  | .negSucc e => (l.digits, Nat.pow 10 (e + 1))

/-- The binary value without its sign, in units, unless it is not finite.

A value of at least `10 ^ 310` is beyond all finite numbers, and one below `10 ^ (-330)` is nearest
to zero; neither needs a division. -/
def magnitude? (l : Literal) : Option Nat :=
  let size : Int := digitCount l.digits + l.exponent
  if l.digits = 0 ∨ size < -330 then some 0
  else if 310 < size then none
  else
    let units := Binary64.nearest l.quotient.1 l.quotient.2
    if Binary64.isFinite units then some units else none

end Literal

end Touchstone.Number
