import Touchstone.Number.Binary64
import Touchstone.Proofs.Number.Rounding

/-!
# The nearest binary number

The binary numbers around a value lie on a grid whose spacing depends on the value.  Rounding to the
grid is monotone although the spacing changes, since the powers of two lie on the grids of both
sides.  The distance of a value from the rounded one is bounded by a fixed part of the value, and by
half a unit where the numbers are smallest.

## Main definitions

* `Touchstone.Number.Binary64.Rounds` : the binary number nearest to a rational number of units.

## Main results

* `Touchstone.Number.Binary64.rounds_nearest` : a quotient is rounded to the nearest number.
* `Touchstone.Number.Binary64.Rounds.mono` : rounding is monotone.
* `Touchstone.Number.Binary64.Rounds.abs_sub_le` : the rounding error.
-/

namespace Touchstone.Number.Binary64

/-- The value `a`, in units, is rounded to `m` units. -/
def Rounds (a : ℚ) (m : ℕ) : Prop :=
  ∃ k, m = k * spacing ⌊a⌋₊ ∧ IsNearest (a / spacing ⌊a⌋₊) k

theorem unit_pos : 0 < unit := by
  delta unit
  generalize 1074 = n
  exact Nat.two_pow_pos n

theorem spacing_eq (units : ℕ) : spacing units = 2 ^ (units.log2 - 52) := rfl

theorem spacing_pos (units : ℕ) : (0 : ℚ) < spacing units := by
  exact_mod_cast Nat.two_pow_pos (units.log2 - 52)

/-- A quotient is rounded to the nearest binary number. -/
theorem rounds_nearest (num : ℕ) {den : ℕ} (hden : 0 < den) :
    Rounds (num / den * unit) (nearest num den) := by
  have hfloor : ⌊(num / den * unit : ℚ)⌋₊ = num * unit / den := by
    rw [div_mul_eq_mul_div, ← Nat.cast_mul, Nat.floor_div_eq_div]
  refine ⟨roundQuotient (num * unit) (den * spacing (num * unit / den)), ?_, ?_⟩
  · rw [hfloor]
    rfl
  · have hpos : 0 < den * spacing (num * unit / den) := Nat.mul_pos hden (Nat.two_pow_pos _)
    have h := isNearest_roundQuotient (num * unit) hpos
    rw [hfloor, div_mul_eq_mul_div, div_div]
    exact_mod_cast h

namespace Rounds

variable {a b : ℚ} {c m n : ℕ}

/-! ### Bounds on the grid -/

theorem le_of_le (h : Rounds a m) (hgrid : spacing ⌊a⌋₊ ∣ c) (hle : a ≤ c) : m ≤ c := by
  obtain ⟨k, rfl, hk⟩ := h
  obtain ⟨l, rfl⟩ := hgrid
  rw [Nat.mul_comm]
  refine Nat.mul_le_mul_left _ (hk.le_of_le ?_)
  rw [div_le_iff₀ (spacing_pos _), mul_comm]
  exact_mod_cast hle

theorem le_of_ge (h : Rounds a m) (hgrid : spacing ⌊a⌋₊ ∣ c) (hge : c ≤ a) : c ≤ m := by
  obtain ⟨k, rfl, hk⟩ := h
  obtain ⟨l, rfl⟩ := hgrid
  rw [Nat.mul_comm k]
  refine Nat.mul_le_mul_left _ (hk.le_of_ge ?_)
  rw [le_div_iff₀ (spacing_pos _), mul_comm]
  exact_mod_cast hge

/-- A number of the grid is rounded to itself. -/
theorem natCast (hgrid : spacing m ∣ m) : Rounds m m := by
  obtain ⟨k, hk⟩ := hgrid
  have hcast : (m : ℚ) = k * spacing m := by
    rw [mul_comm]
    exact_mod_cast hk
  refine ⟨k, ?_, ?_⟩
  · rw [Nat.floor_natCast, Nat.mul_comm]
    exact hk
  · rw [Nat.floor_natCast]
    nth_rewrite 1 [hcast]
    rw [mul_div_cancel_right₀ _ (spacing_pos m).ne']
    exact .natCast k

/-! ### Monotonicity -/

/-- Where the spacing grows, a power of two lies between the two numbers, and on both grids. -/
theorem le_of_log2_lt (ha : Rounds a m) (hb : Rounds b n) (hb0 : 0 ≤ b) (hne : ⌊b⌋₊ ≠ 0)
    (hlog : ⌊a⌋₊.log2 < ⌊b⌋₊.log2) : m ≤ n := by
  have hbelow : a < (2 ^ ⌊b⌋₊.log2 : ℕ) := by
    refine Nat.lt_of_floor_lt (lt_of_lt_of_le Nat.lt_log2_self ?_)
    exact Nat.pow_le_pow_right two_pos hlog
  have habove : ((2 ^ ⌊b⌋₊.log2 : ℕ) : ℚ) ≤ b :=
    (Nat.cast_le.2 (Nat.log2_self_le hne)).trans (Nat.floor_le hb0)
  have hdvd : ∀ i, i ≤ ⌊b⌋₊.log2 → 2 ^ (i - 52) ∣ 2 ^ ⌊b⌋₊.log2 := fun i hi =>
    Nat.pow_dvd_pow 2 ((Nat.sub_le i 52).trans hi)
  exact (ha.le_of_le (hdvd _ hlog.le) hbelow.le).trans (hb.le_of_ge (hdvd _ le_rfl) habove)

/-- Rounding is monotone. -/
theorem mono (ha : Rounds a m) (hb : Rounds b n) (hb0 : 0 ≤ b) (h : a ≤ b) : m ≤ n := by
  have hfloor : ⌊a⌋₊ ≤ ⌊b⌋₊ := Nat.floor_mono h
  have hlog : ⌊a⌋₊.log2 ≤ ⌊b⌋₊.log2 := by
    rw [Nat.log2_eq_log_two, Nat.log2_eq_log_two]
    exact Nat.log_mono_right hfloor
  rcases hlog.eq_or_lt with heq | hlt
  · obtain ⟨k, rfl, hk⟩ := ha
    obtain ⟨l, rfl, hl⟩ := hb
    rw [spacing_eq, heq, ← spacing_eq] at hk ⊢
    refine Nat.mul_le_mul_right _ (hk.mono hl ?_)
    exact div_le_div_of_nonneg_right h (spacing_pos _).le
  · refine ha.le_of_log2_lt hb hb0 (fun hzero => ?_) hlt
    simp [hzero] at hlt

theorem unique (hm : Rounds a m) (hn : Rounds a n) (ha : 0 ≤ a) : m = n :=
  le_antisymm (hm.mono hn ha le_rfl) (hn.mono hm ha le_rfl)

/-! ### Ties -/

/-- Between two powers of two, numbers with 53 significant bits lie on the grid. -/
theorem spacing_of_mem {x e : ℕ} (hlow : 2 ^ (52 + e) ≤ x) (hhigh : x < 2 ^ (53 + e)) :
    spacing x = 2 ^ e := by
  have hne : x ≠ 0 := (lt_of_lt_of_le (Nat.two_pow_pos _) hlow).ne'
  have hlog : x.log2 = 52 + e := by
    have hge := (Nat.le_log2 hne).2 hlow
    have hlt := (Nat.log2_lt hne).2 hhigh
    omega
  rw [spacing_eq, hlog, Nat.add_sub_cancel_left]

section Middle

variable {k e : ℕ}

theorem spacing_two_pow_dvd (p : ℕ) : spacing (2 ^ p) ∣ 2 ^ p := by
  rw [spacing_eq, Nat.log2_two_pow]
  exact Nat.pow_dvd_pow 2 (Nat.sub_le p 52)

theorem exists_of_floor_mem (h : Rounds a n) (hlow : 2 ^ (52 + e) ≤ ⌊a⌋₊)
    (hhigh : ⌊a⌋₊ < 2 ^ (53 + e)) : ∃ l, n = l * 2 ^ e ∧ IsNearest (a / (2 ^ e : ℕ)) l := by
  obtain ⟨l, hl, hnearest⟩ := h
  rw [spacing_of_mem hlow hhigh] at hl hnearest
  exact ⟨l, hl, hnearest⟩

/-- Up to the middle behind an even number, values are rounded to that number or below it. -/
theorem le_of_le_middle (h : Rounds a n) (hk : 2 ^ 52 ≤ k) (hk' : k < 2 ^ 53) (heven : Even k)
    (ha : a ≤ (k + 1 / 2) * (2 ^ e : ℕ)) : n ≤ k * 2 ^ e := by
  have hstep : (0 : ℚ) < (2 ^ e : ℕ) := by exact_mod_cast Nat.two_pow_pos e
  rcases lt_or_ge ⌊a⌋₊ (2 ^ (52 + e)) with hlow | hlow
  · calc n ≤ 2 ^ (52 + e) :=
          h.mono (natCast (spacing_two_pow_dvd _)) (Nat.cast_nonneg _) (Nat.lt_of_floor_lt hlow).le
      _ = 2 ^ 52 * 2 ^ e := Nat.pow_add ..
      _ ≤ k * 2 ^ e := Nat.mul_le_mul_right _ hk
  · have hhigh : ⌊a⌋₊ < 2 ^ (53 + e) := by
      have hlast : (k : ℚ) + 1 ≤ 2 ^ 53 := by exact_mod_cast hk'
      rw [Nat.floor_lt' (Nat.two_pow_pos _).ne', Nat.pow_add, Nat.cast_mul]
      refine lt_of_le_of_lt ha (mul_lt_mul_of_pos_right ?_ hstep)
      push_cast
      linarith
    obtain ⟨l, rfl, hnearest⟩ := h.exists_of_floor_mem hlow hhigh
    refine Nat.mul_le_mul_right _ ((hnearest.le_iff_of_even heven).2 ?_)
    rwa [div_le_iff₀ hstep]

/-- Beyond the middle behind an even number, values are rounded to the next number or above it. -/
theorem le_of_middle_lt (h : Rounds a n) (hk : 2 ^ 52 ≤ k) (hk' : k < 2 ^ 53) (heven : Even k)
    (ha : (k + 1 / 2) * (2 ^ e : ℕ) < a) : (k + 1) * 2 ^ e ≤ n := by
  have hstep : (0 : ℚ) < (2 ^ e : ℕ) := by exact_mod_cast Nat.two_pow_pos e
  have hfirst : (2 : ℚ) ^ 52 ≤ k := by exact_mod_cast hk
  have ha0 : 0 ≤ a := le_trans (by positivity) ha.le
  rcases lt_or_ge ⌊a⌋₊ (2 ^ (53 + e)) with hhigh | hhigh
  · have hlow : 2 ^ (52 + e) ≤ ⌊a⌋₊ := by
      rw [Nat.le_floor_iff ha0, Nat.pow_add, Nat.cast_mul]
      refine le_trans (mul_le_mul_of_nonneg_right ?_ hstep.le) ha.le
      push_cast
      linarith
    obtain ⟨l, rfl, hnearest⟩ := h.exists_of_floor_mem hlow hhigh
    refine Nat.mul_le_mul_right _ (Nat.succ_le_of_lt (not_le.1 fun hle => ?_))
    have hmiddle := (hnearest.le_iff_of_even heven).1 hle
    rw [div_le_iff₀ hstep] at hmiddle
    exact absurd hmiddle (not_le.2 ha)
  · calc (k + 1) * 2 ^ e ≤ 2 ^ 53 * 2 ^ e := Nat.mul_le_mul_right _ hk'
      _ = 2 ^ (53 + e) := (Nat.pow_add ..).symm
      _ ≤ n := (natCast (spacing_two_pow_dvd _)).mono h ha0 ((Nat.le_floor_iff ha0).1 hhigh)

end Middle

/-! ### The rounding error -/

theorem abs_sub_le_spacing (h : Rounds a m) : |(m : ℚ) - a| ≤ spacing ⌊a⌋₊ / 2 := by
  obtain ⟨k, rfl, hk⟩ := h
  have hpos := spacing_pos ⌊a⌋₊
  have hscaled : a = a / spacing ⌊a⌋₊ * spacing ⌊a⌋₊ := (div_mul_cancel₀ _ hpos.ne').symm
  generalize spacing ⌊a⌋₊ = step at *
  calc |((k * step : ℕ) : ℚ) - a|
      = |a / step - k| * step := by
        nth_rewrite 1 [hscaled]
        rw [Nat.cast_mul, ← sub_mul, abs_mul, abs_of_pos hpos, abs_sub_comm]
    _ ≤ 1 / 2 * step := mul_le_mul_of_nonneg_right hk.near hpos.le
    _ = step / 2 := by ring

/-- A value is rounded by at most the part `2 ^ (-53)` of it, or by at most half a unit. -/
theorem abs_sub_le (h : Rounds a m) (ha : 0 ≤ a) : |(m : ℚ) - a| ≤ max (1 / 2) (a / 2 ^ 53) := by
  refine h.abs_sub_le_spacing.trans ?_
  rcases Nat.le_total ⌊a⌋₊.log2 52 with hsmall | hlarge
  · rw [spacing_eq, Nat.sub_eq_zero_of_le hsmall]
    norm_num
  · have hne : ⌊a⌋₊ ≠ 0 := by
      rintro hzero
      simp [hzero] at hlarge
    have hpower : spacing ⌊a⌋₊ * 2 ^ 52 ≤ ⌊a⌋₊ := by
      rw [spacing_eq, ← Nat.pow_add, Nat.sub_add_cancel hlarge]
      exact Nat.log2_self_le hne
    have hcast : (spacing ⌊a⌋₊ : ℚ) * 2 ^ 52 ≤ a :=
      le_trans (by exact_mod_cast hpower) (Nat.floor_le ha)
    refine le_max_of_le_right ?_
    rw [div_le_div_iff₀ two_pos (by positivity)]
    linarith

end Rounds

end Touchstone.Number.Binary64
