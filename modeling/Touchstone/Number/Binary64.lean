import Touchstone.Number.Rounding

/-!
# Binary numbers of 64 bits

A finite non-negative binary number of 64 bits is a natural number times `2 ^ (-1074)`.  It has at
most 53 significant bits and lies below `2 ^ 1024`.  Such numbers are held here as the natural
number in front of the unit.

## Main definitions

* `Touchstone.Number.Binary64.unit` : the number of units in one.
* `Touchstone.Number.Binary64.nearest` : the number nearest to a quotient, ties to an even last bit.
* `Touchstone.Number.Binary64.isFinite` : the bound that a rounded quotient may exceed.
-/

namespace Touchstone.Number.Binary64

/-- The number of units in one. -/
def unit : Nat := Nat.pow 2 1074

/-- The distance of neighbours around a number of units: 53 significant bits are kept. -/
def spacing (units : Nat) : Nat := Nat.pow 2 (units.log2 - 52)

/-- The binary number nearest to the quotient `num / den`, in units, ties to an even last bit.  The
result may exceed the finite numbers. -/
def nearest (num den : Nat) : Nat :=
  let step := spacing (num * unit / den)
  roundQuotient (num * unit) (den * step) * step

/-- The number of units is that of a finite number. -/
def isFinite (units : Nat) : Bool := units < Nat.pow 2 1024 * unit

end Touchstone.Number.Binary64
