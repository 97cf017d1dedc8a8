import Touchstone.Proofs.Timeout.Accuracy
import Touchstone.Suite.Interpreter

/-!
# Positive time limits

A time limit has to be a positive number of seconds, but it is checked before it is rounded to
nanoseconds.  A literal up to about half a nanosecond passes the check and is read as no time at
all.  The exact bound is the middle between the two binary numbers around half a nanosecond.

## Main definitions

* `Touchstone.Timeout.middle` : the greatest number that is read as no time.

## Main results

* `Touchstone.Timeout.middle_lt` : the middle lies below half a nanosecond.
* `Touchstone.Timeout.positive_iff` : which literals are read as a positive time limit.
* `Touchstone.Timeout.accepts_zero` : a literal that is read as no time, under which every child
  that is seen running is killed.
-/

namespace Touchstone.Timeout

open Number
open Number.Binary64 (Rounds unit)

variable {text : String} {limit : Duration} {q : ℚ} {units : ℕ}

/-! ### The bound -/

/-- The last binary number that is rounded to no time is this number times `2 ^ (-83)`. -/
def lastDigits : ℕ := 4835703278458516

/-- The middle between the last binary number that is rounded to no time and the next one. -/
def middle : ℚ := (lastDigits + 1 / 2) / 2 ^ 83

/-- Half a nanosecond lies beyond the middle. -/
theorem middle_lt : middle < 1 / (2 * 10 ^ 9) := by
  norm_num [middle, lastDigits]

theorem unit_eq_mul_step : unit = 2 ^ 83 * 2 ^ 991 := Binary64.unit_eq (Nat.add_comm 83 991)

theorem last_le : 2 * 10 ^ 9 * (lastDigits * 2 ^ 991) ≤ unit := by
  rw [unit_eq_mul_step, ← Nat.mul_assoc]
  exact Nat.mul_le_mul_right _ (by decide)

theorem lt_next : unit < 2 * 10 ^ 9 * ((lastDigits + 1) * 2 ^ 991) := by
  rw [unit_eq_mul_step, ← Nat.mul_assoc]
  exact Nat.mul_lt_mul_of_pos_right (by decide) (pow_pos two_pos 991)

theorem middle_mul_unit : middle * unit = (lastDigits + 1 / 2) * (2 ^ 991 : ℕ) := by
  rw [middle, unit_eq_mul_step, Nat.cast_mul]
  generalize ((2 ^ 991 : ℕ) : ℚ) = step
  push_cast
  ring

namespace Reads

/-- No time is left of at most half a nanosecond. -/
theorem nanoseconds_eq_zero_iff (h : Reads text limit q units) :
    limit.nanoseconds = 0 ↔ 2 * 10 ^ 9 * units ≤ unit := by
  have hunit : (0 : ℚ) < unit := Nat.cast_pos.2 Binary64.unit_pos
  rw [← Nat.le_zero, h.nearest.le_iff_of_even (by decide), div_le_iff₀ hunit, Nat.cast_zero,
    zero_add]
  have hscale : (units : ℚ) * 10 ^ 9 ≤ 1 / 2 * unit ↔ ((2 * 10 ^ 9 * units : ℕ) : ℚ) ≤ unit := by
    push_cast
    constructor <;> intro <;> linarith
  rw [hscale, Nat.cast_le]

theorem pos_iff (h : Reads text limit q units) : 0 < limit.nanoseconds ↔ middle < q := by
  have hunit : (0 : ℚ) < unit := Nat.cast_pos.2 Binary64.unit_pos
  have heven : Even lastDigits := by decide
  rw [Nat.pos_iff_ne_zero, Ne, h.nanoseconds_eq_zero_iff, not_le]
  constructor
  · intro hlt
    by_contra hle
    have hunits : units ≤ lastDigits * 2 ^ 991 := by
      refine h.rounds.le_of_le_middle (by decide) (by decide) heven ?_
      rw [← middle_mul_unit]
      exact mul_le_mul_of_nonneg_right (not_lt.1 hle) hunit.le
    exact absurd (hlt.trans_le (Nat.mul_le_mul_left _ hunits)) (not_lt.2 last_le)
  · intro hlt
    have hunits : (lastDigits + 1) * 2 ^ 991 ≤ units := by
      refine h.rounds.le_of_middle_lt (by decide) (by decide) heven ?_
      rw [← middle_mul_unit]
      exact mul_lt_mul_of_pos_right hlt hunit
    exact lt_next.trans_le (Nat.mul_le_mul_left _ hunits)

end Reads

/-! ### The limits that are read -/

/-- A time limit that is read is positive exactly if it is denoted by a number beyond the middle. -/
theorem positive_iff (text : String) (limit : Duration) (accepted : parse text = .ok limit) :
    ∃ q, Decimal text.toList q ∧ 0 < q ∧ (0 < limit.nanoseconds ↔ middle < q) := by
  obtain ⟨q, units, hreads⟩ := parse_eq_ok_iff.1 accepted
  exact ⟨q, hreads.decimal, hreads.positive, hreads.pos_iff⟩

/-- Half a nanosecond is read as a nanosecond. -/
theorem positive_half : parse "5e-10" = .ok ⟨1⟩ ∧
    ∃ q, Decimal "5e-10".toList q ∧ 0 < q ∧ (0 < 1 ↔ middle < q) := by
  have accepted : parse "5e-10" = .ok ⟨1⟩ := by decide +kernel
  exact ⟨accepted, positive_iff "5e-10" ⟨1⟩ accepted⟩

/-- A child that is seen running is killed at once under no time. -/
theorem childResult_zero {f : Fixture} {child : Child} {now : Instant} {later : List Instant}
    (running : child.runningAt = now :: later) (clock : child.startedAt ≤ now)
    (reach : child.startedAt < clockLimit * Duration.perSecond) :
    childResult f (some ⟨0⟩) child = .error (.failure (.timedOut f.path ⟨0⟩)) := by
  simp only [childResult, deadline?, Nat.add_zero, reach, if_true, Child.await, running, awaitUntil,
    clock]

/-- A tenth of a nanosecond is read as no time, under which every child that is seen running is
killed. -/
theorem accepts_zero : parse "1e-10" = .ok ⟨0⟩ ∧
    (¬∀ text limit, parse text = .ok limit → 1 ≤ limit.nanoseconds) ∧
    ∀ f child now later, child.runningAt = now :: later → child.startedAt ≤ now →
      child.startedAt < clockLimit * Duration.perSecond →
      childResult f (some ⟨0⟩) child = .error (.failure (.timedOut f.path ⟨0⟩)) := by
  have accepted : parse "1e-10" = .ok ⟨0⟩ := by decide +kernel
  refine ⟨accepted, fun positive => ?_, fun f child now later => childResult_zero⟩
  exact absurd (positive "1e-10" ⟨0⟩ accepted) (by decide)

end Touchstone.Timeout
