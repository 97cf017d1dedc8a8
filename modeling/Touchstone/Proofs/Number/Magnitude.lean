import Touchstone.Proofs.Number.Binary64
import Touchstone.Proofs.Number.Decimal

/-!
# The binary value of a literal

The binary value of a literal is the number nearest to what the literal denotes, also where the size
of the literal tells the value without a division.

## Main results

* `Touchstone.Number.Literal.magnitude?_eq` : the binary value of a literal.
* `Touchstone.Number.Literal.rounds_nearest` : the binary value is nearest to the literal.
-/

namespace Touchstone.Number

/-! ### Numbers on the grid -/

namespace Binary64

/-- The unit is a power of two that can be split. -/
theorem unit_eq {m n : ℕ} (h : m + n = 1074) : unit = 2 ^ m * 2 ^ n := by
  delta unit
  rw [← h, Nat.pow_eq, Nat.pow_add]

theorem isFinite_iff {m : ℕ} : isFinite m = true ↔ m < 2 ^ 1024 * unit := by
  delta isFinite
  generalize 1024 = n
  rw [decide_eq_true_iff, Nat.pow_eq]

/-- A number with at most 53 significant bits lies on the grid. -/
theorem spacing_dvd {k : ℕ} (hk : k < 2 ^ 53) (e : ℕ) : spacing (k * 2 ^ e) ∣ k * 2 ^ e := by
  rcases Nat.eq_zero_or_pos k with rfl | hpos
  · rw [Nat.zero_mul]
    exact Nat.dvd_zero _
  · have hlog : (k * 2 ^ e).log2 < 53 + e := by
      rw [Nat.log2_lt (Nat.mul_pos hpos (Nat.two_pow_pos e)).ne', Nat.pow_add]
      exact Nat.mul_lt_mul_of_pos_right hk (Nat.two_pow_pos e)
    have hgrid : spacing (k * 2 ^ e) ∣ 2 ^ e := by
      rw [spacing_eq]
      exact Nat.pow_dvd_pow 2 (by omega)
    exact hgrid.mul_left k

theorem spacing_dvd_mul_unit {k : ℕ} (hk : k < 2 ^ 53) (e : ℕ) :
    spacing (k * 2 ^ e * unit) ∣ k * 2 ^ e * unit := by
  rw [unit_eq (Nat.zero_add 1074), Nat.pow_zero, Nat.one_mul, Nat.mul_assoc, ← Nat.pow_add]
  exact spacing_dvd hk _

/-- A value below half a unit is rounded to zero. -/
theorem Rounds.eq_zero {a : ℚ} {m : ℕ} (h : Rounds a m) (ha : a ≤ 1 / 2) : m = 0 := by
  obtain ⟨k, rfl, hk⟩ := h
  have hfloor : ⌊a⌋₊ = 0 := Nat.floor_eq_zero.2 (by linarith)
  rw [hfloor] at hk
  have hone : ((spacing 0 : ℕ) : ℚ) = 1 := by
    rw [spacing_eq]
    norm_num
  rw [hone, div_one] at hk
  have hle := (hk.le_iff_of_even (m := 0) (by decide)).2 (by simpa using ha)
  rw [Nat.le_zero.1 hle, Nat.zero_mul]

end Binary64

/-! ### The size of a literal -/

theorem digitCount_pos {n : ℕ} (hn : n ≠ 0) : 0 < digitCount n := by
  rw [digitCount, if_neg hn]
  exact Nat.length_toDigits_pos

theorem lt_pow_digitCount {n : ℕ} (hn : n ≠ 0) : n < 10 ^ digitCount n := by
  have h := (Nat.length_toDigits_le_iff (b := 10) (n := n) (by decide) (digitCount_pos hn)).1
  rw [digitCount, if_neg hn] at h ⊢
  exact h le_rfl

theorem pow_digitCount_le {n : ℕ} (hn : n ≠ 0) : 10 ^ (digitCount n - 1) ≤ n := by
  rw [digitCount, if_neg hn]
  rcases Nat.lt_or_ge 1 (Nat.toDigits 10 n).length with hmany | hone
  · refine not_lt.1 fun hlt => ?_
    have := (Nat.length_toDigits_le_iff (by decide) (Nat.sub_pos_of_lt hmany)).2 hlt
    omega
  · rw [Nat.sub_eq_zero_of_le hone]
    exact Nat.one_le_iff_ne_zero.2 hn

namespace Literal

open Binary64

variable {l : Literal}

theorem absolute_nonneg (l : Literal) : 0 ≤ l.absolute := by
  rw [absolute]
  positivity

theorem absolute_lt (h : l.digits ≠ 0) {p : ℤ} (hp : digitCount l.digits + l.exponent ≤ p) :
    l.absolute < 10 ^ p := by
  calc l.absolute < 10 ^ digitCount l.digits * 10 ^ l.exponent := by
        refine mul_lt_mul_of_pos_right ?_ (by positivity)
        exact_mod_cast lt_pow_digitCount h
    _ = 10 ^ (digitCount l.digits + l.exponent) := by
        rw [zpow_add₀ (by norm_num), zpow_natCast]
    _ ≤ 10 ^ p := zpow_le_zpow_right₀ (by norm_num) hp

theorem le_absolute (h : l.digits ≠ 0) {p : ℤ} (hp : p < digitCount l.digits + l.exponent) :
    10 ^ p ≤ l.absolute := by
  have hpos := digitCount_pos h
  calc (10 : ℚ) ^ p ≤ 10 ^ (((digitCount l.digits - 1 : ℕ) : ℤ) + l.exponent) :=
        zpow_le_zpow_right₀ (by norm_num) (by omega)
    _ = 10 ^ (digitCount l.digits - 1) * 10 ^ l.exponent := by
        rw [zpow_add₀ (by norm_num), zpow_natCast]
    _ ≤ l.absolute := by
        refine mul_le_mul_of_nonneg_right ?_ (by positivity)
        exact_mod_cast pow_digitCount_le h

/-! ### Values -/

theorem quotient_pos (l : Literal) : 0 < l.quotient.2 := by
  rw [quotient]
  split
  · exact Nat.one_pos
  · exact Nat.pow_pos (by decide)

theorem quotient_eq (l : Literal) : (l.quotient.1 : ℚ) / l.quotient.2 = l.absolute := by
  rw [quotient, absolute]
  split
  · rename_i e he
    rw [he, Int.ofNat_eq_natCast, zpow_natCast]
    simp
  · rename_i e he
    rw [he, zpow_negSucc]
    simp [div_eq_mul_inv]

/-- The binary value is nearest to the literal. -/
theorem rounds_nearest (l : Literal) :
    Rounds (l.absolute * unit) (nearest l.quotient.1 l.quotient.2) := by
  have h := Binary64.rounds_nearest l.quotient.1 l.quotient_pos
  rwa [l.quotient_eq] at h

/-- A literal that is not below a number with 53 significant bits is not rounded below it. -/
theorem le_nearest {k e : ℕ} (hk : k < 2 ^ 53) (h : ((k * 2 ^ e : ℕ) : ℚ) ≤ l.absolute) :
    k * 2 ^ e * unit ≤ nearest l.quotient.1 l.quotient.2 := by
  refine (Rounds.natCast (spacing_dvd_mul_unit hk e)).mono l.rounds_nearest
    (mul_nonneg l.absolute_nonneg (Nat.cast_nonneg _)) ?_
  rw [Nat.cast_mul]
  exact mul_le_mul_of_nonneg_right h (Nat.cast_nonneg _)

/-- A literal that is not above a number with 53 significant bits is not rounded above it. -/
theorem nearest_le {k e : ℕ} (hk : k < 2 ^ 53) (h : l.absolute ≤ ((k * 2 ^ e : ℕ) : ℚ)) :
    nearest l.quotient.1 l.quotient.2 ≤ k * 2 ^ e * unit := by
  refine l.rounds_nearest.mono (.natCast (spacing_dvd_mul_unit hk e)) (Nat.cast_nonneg _) ?_
  rw [Nat.cast_mul (k * 2 ^ e)]
  exact mul_le_mul_of_nonneg_right h (Nat.cast_nonneg _)

/-! ### Literals that are too small or too large -/

theorem two_mul_unit_lt : 2 * unit < 10 ^ 330 := by decide +kernel

theorem one_mul_two_pow_le : 1 * 2 ^ 1024 ≤ 10 ^ 310 := by decide +kernel

theorem nearest_eq_zero_of_small (h : l.digits ≠ 0)
    (hsize : digitCount l.digits + l.exponent < -330) :
    nearest l.quotient.1 l.quotient.2 = 0 := by
  refine l.rounds_nearest.eq_zero ?_
  have hvalue : l.absolute < 10 ^ (-330 : ℤ) := absolute_lt h hsize.le
  have hunit : (unit : ℚ) < 10 ^ (330 : ℤ) / 2 := by
    rw [lt_div_iff₀ two_pos, mul_comm]
    exact_mod_cast two_mul_unit_lt
  calc l.absolute * unit
      ≤ 10 ^ (-330 : ℤ) * (10 ^ (330 : ℤ) / 2) :=
        mul_le_mul hvalue.le hunit.le (Nat.cast_nonneg _) (by positivity)
    _ = 1 / 2 := by
        rw [← mul_div_assoc, ← zpow_add₀ (by norm_num)]
        norm_num

theorem not_isFinite_of_large (h : l.digits ≠ 0)
    (hsize : 310 < digitCount l.digits + l.exponent) :
    isFinite (nearest l.quotient.1 l.quotient.2) = false := by
  have hle : ((1 * 2 ^ 1024 : ℕ) : ℚ) ≤ l.absolute := by
    refine le_trans ?_ (le_absolute h hsize)
    exact_mod_cast one_mul_two_pow_le
  have hbeyond := le_nearest (by norm_num) hle
  rw [Nat.one_mul] at hbeyond
  rw [← Bool.not_eq_true, isFinite_iff]
  exact not_lt.2 hbeyond

/-- The binary value of a literal is that of its quotient, unless it is not finite. -/
theorem magnitude?_eq (l : Literal) :
    l.magnitude? =
      if isFinite (nearest l.quotient.1 l.quotient.2) then
        some (nearest l.quotient.1 l.quotient.2)
      else none := by
  have hzero : isFinite 0 = true :=
    isFinite_iff.2 (Nat.mul_pos (pow_pos two_pos 1024) Binary64.unit_pos)
  rw [magnitude?]
  by_cases hdigits : l.digits = 0
  · have h0 : nearest l.quotient.1 l.quotient.2 = 0 := by
      refine l.rounds_nearest.eq_zero ?_
      rw [absolute, hdigits, Nat.cast_zero, zero_mul, zero_mul]
      norm_num
    rw [if_pos (.inl hdigits), h0, if_pos hzero]
  · dsimp only
    rcases lt_or_ge (digitCount l.digits + l.exponent : ℤ) (-330) with hsmall | hsmall
    · rw [if_pos (.inr hsmall), nearest_eq_zero_of_small hdigits hsmall, if_pos hzero]
    · rw [if_neg (by simp [hdigits, hsmall])]
      split
      · rename_i hlarge
        rw [not_isFinite_of_large hdigits hlarge, if_neg Bool.false_ne_true]
      · rfl

end Literal

end Touchstone.Number
