import Mathlib
import Touchstone.Number.Rounding

/-!
# The nearest natural number

A rational number that is not negative has one or two nearest natural numbers.  Of two, one is even.
The one that is chosen so is unique, and it grows with the rational number.

## Main definitions

* `Touchstone.Number.IsNearest` : the natural number nearest to a rational number, ties to even.

## Main results

* `Touchstone.Number.isNearest_roundQuotient` : quotients are rounded to the nearest number.
* `Touchstone.Number.IsNearest.mono` : rounding is monotone.
-/

namespace Touchstone.Number

/-- The natural number `n` is nearest to `q`, and even if another one is as near. -/
structure IsNearest (q : ℚ) (n : ℕ) : Prop where
  near : |q - n| ≤ 1 / 2
  even : |q - n| = 1 / 2 → Even n

namespace IsNearest

variable {p q : ℚ} {m n : ℕ}

/-- Rounding is monotone: two numbers that would be swapped by it both lie in the middle between
neighbours, of which only one is even. -/
theorem mono (hp : IsNearest p m) (hq : IsNearest q n) (h : p ≤ q) : m ≤ n := by
  by_contra hlt
  have hstep : (n : ℚ) + 1 ≤ m := by exact_mod_cast not_le.1 hlt
  have hm := abs_le.1 hp.near
  have hn := abs_le.1 hq.near
  have hmiddle : p = m - 1 / 2 ∧ q = n + 1 / 2 ∧ (m : ℚ) = n + 1 :=
    ⟨by linarith, by linarith, by linarith⟩
  have hp_even : Even m := hp.even (by rw [hmiddle.1]; norm_num)
  have hq_even : Even n := hq.even (by rw [hmiddle.2.1]; norm_num)
  have hsucc : m = n + 1 := by exact_mod_cast hmiddle.2.2
  rw [hsucc, Nat.even_add_one] at hp_even
  exact hp_even hq_even

theorem unique (hm : IsNearest q m) (hn : IsNearest q n) : m = n :=
  le_antisymm (hm.mono hn le_rfl) (hn.mono hm le_rfl)

theorem natCast (n : ℕ) : IsNearest n n := by
  constructor <;> norm_num

theorem le_of_le (h : IsNearest q n) (hq : q ≤ m) : n ≤ m := h.mono (natCast m) hq

theorem le_of_ge (h : IsNearest q n) (hq : m ≤ q) : m ≤ n := (natCast m).mono h hq

/-- A number is rounded to an even one or below it exactly up to the middle behind that. -/
theorem le_iff_of_even (h : IsNearest q n) (hm : Even m) : n ≤ m ↔ q ≤ m + 1 / 2 := by
  have hmiddle : IsNearest ((m : ℚ) + 1 / 2) m := by
    refine ⟨?_, fun _ => hm⟩
    rw [add_sub_cancel_left]
    norm_num
  constructor
  · intro hn
    have hcast : (n : ℚ) ≤ m := by exact_mod_cast hn
    linarith [(abs_le.1 h.near).2]
  · exact h.mono hmiddle

end IsNearest

theorem natCast_div_eq (num : ℕ) {den : ℕ} (hden : 0 < den) :
    (num : ℚ) / den = (num / den : ℕ) + ((num % den : ℕ) : ℚ) / den := by
  have hpos : (0 : ℚ) < den := by exact_mod_cast hden
  rw [div_eq_iff hpos.ne', add_mul, div_mul_cancel₀ _ hpos.ne']
  exact_mod_cast (Nat.div_add_mod' num den).symm

/-- Quotients are rounded to the nearest number. -/
theorem isNearest_roundQuotient (num : ℕ) {den : ℕ} (hden : 0 < den) :
    IsNearest (num / den : ℚ) (roundQuotient num den) := by
  have hpos : (0 : ℚ) < den := by exact_mod_cast hden
  have hmod : ((num % den : ℕ) : ℚ) / den < 1 := by
    rw [div_lt_one hpos]
    exact_mod_cast Nat.mod_lt num hden
  have hnonneg : (0 : ℚ) ≤ ((num % den : ℕ) : ℚ) / den := by positivity
  have hhalf : ((num % den : ℕ) : ℚ) / den < 1 / 2 ↔ 2 * (num % den) < den := by
    rw [div_lt_div_iff₀ hpos two_pos]
    norm_cast
    omega
  have htie : ((num % den : ℕ) : ℚ) / den = 1 / 2 ↔ 2 * (num % den) = den := by
    rw [div_eq_div_iff hpos.ne' two_ne_zero]
    norm_cast
    omega
  rw [natCast_div_eq num hden, roundQuotient]
  generalize ((num % den : ℕ) : ℚ) / den = fraction at *
  split
  next hdown =>
    refine ⟨?_, fun h => ?_⟩
    · rw [add_sub_cancel_left, abs_of_nonneg hnonneg]
      exact hdown.elim (fun h => (hhalf.2 h).le) fun h => (htie.2 h.1).le
    · rw [add_sub_cancel_left, abs_of_nonneg hnonneg, htie] at h
      exact Nat.even_iff.2 (hdown.elim (fun hlt => absurd h hlt.ne) And.right)
  next hup =>
    have hge : 1 / 2 ≤ fraction := not_lt.1 fun h => hup (.inl (hhalf.1 h))
    have hdistance : |((num / den : ℕ) + fraction : ℚ) - (num / den + 1 : ℕ)| = 1 - fraction := by
      rw [abs_sub_comm, abs_of_nonneg] <;> push_cast <;> linarith
    refine ⟨by rw [hdistance]; linarith, fun h => ?_⟩
    rw [hdistance] at h
    have hodd : ¬(num / den) % 2 = 0 := fun heven => hup (.inr ⟨htie.1 (by linarith), heven⟩)
    rwa [Nat.even_add_one, Nat.even_iff]

end Touchstone.Number
