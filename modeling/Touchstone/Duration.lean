import Touchstone.Number.Binary64

/-!
# Durations

A duration is a number of nanoseconds.  It is made from a binary number of seconds by rounding to
the nearest nanosecond, and shown in seconds with three decimals.

## Main definitions

* `Touchstone.Duration` : a duration.
* `Touchstone.Duration.ofUnits?` : the duration of a binary number of seconds.
* `Touchstone.Duration.display` : a duration in seconds as text.
-/

namespace Touchstone

/-- A stretch of time in whole nanoseconds. -/
structure Duration where
  /-- The number of nanoseconds. -/
  nanoseconds : Nat
  deriving DecidableEq, Repr

namespace Duration

/-- The number of nanoseconds in a second. -/
def perSecond : Nat := Nat.pow 10 9

/-- The duration of whole seconds and nanoseconds. -/
def of (seconds nanoseconds : Nat) : Duration := ⟨seconds * perSecond + nanoseconds⟩

/-- The whole seconds of a duration. -/
def seconds (d : Duration) : Nat := d.nanoseconds / perSecond

/-- The nanoseconds of a duration beyond its whole seconds. -/
def subsecond (d : Duration) : Nat := d.nanoseconds % perSecond

/-- The duration of a binary number of seconds, rounded to the nearest nanosecond, ties to even.
The number has to lie below `2 ^ 64`. -/
def ofUnits? (units : Nat) : Option Duration :=
  if units < Nat.pow 2 64 * Number.Binary64.unit then
    some ⟨Number.roundQuotient (units * perSecond) Number.Binary64.unit⟩
  else none

/-- The binary number of seconds nearest to the sum of the binary numbers for the whole seconds and
for the rest. -/
def toUnits (d : Duration) : Nat :=
  let whole := Number.Binary64.nearest d.seconds 1
  let rest := Number.Binary64.nearest d.subsecond perSecond
  Number.Binary64.nearest (whole + rest) Number.Binary64.unit

/-- The duration in seconds, with three decimals of its binary number. -/
def display (d : Duration) : String :=
  Number.thousandths (Number.roundQuotient (d.toUnits * 1000) Number.Binary64.unit)

end Duration

end Touchstone
