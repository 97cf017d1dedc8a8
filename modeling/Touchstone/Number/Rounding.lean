/-!
# Rounding a quotient

A quotient of natural numbers is rounded to the nearest natural number; a quotient in the middle
between two goes to the even one.

## Main definitions

* `Touchstone.Number.roundQuotient` : the rounded quotient.
* `Touchstone.Number.thousandths` : a number of thousandths as text.
-/

namespace Touchstone.Number

/-- The quotient rounded to the nearest natural number, ties to the even one. -/
def roundQuotient (num den : Nat) : Nat :=
  let quotient := num / den
  let twice := 2 * (num % den)
  if twice < den ∨ (twice = den ∧ quotient % 2 = 0) then quotient else quotient + 1

/-- The text of a number with three decimals, given in thousandths. -/
def thousandths (n : Nat) : String :=
  let fraction := toString (n % 1000)
  toString (n / 1000) ++ "." ++ "".pushn '0' (3 - fraction.length) ++ fraction

end Touchstone.Number
