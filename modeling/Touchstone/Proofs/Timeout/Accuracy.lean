import Touchstone.Proofs.Number.Magnitude
import Touchstone.Timeout

/-!
# The accuracy of time limits

A time limit is rounded twice, from the literal to a binary number of seconds and from that to whole
nanoseconds.  Both roundings are monotone, and so is reading.  The second one costs half a
nanosecond at most, and the first one the part `2 ^ (-53)` of the limit: where the binary numbers
have fewer significant bits, the limit is nothing after the second rounding anyway.

## Main definitions

* `Touchstone.Timeout.Reads` : what reading a time limit consists of.

## Main results

* `Touchstone.Timeout.parse_eq_ok_iff` : the time limits that are read.
* `Touchstone.Timeout.parse_decimal` : reading is accurate and monotone, and it accepts all limits
  from a nanosecond up to the greatest binary number below `2 ^ 64` seconds.
-/

namespace Touchstone

open Number
open Number.Binary64 (Rounds unit)

/-! ### Durations -/

namespace Duration

/-- A duration in seconds. -/
def inSeconds (d : Duration) : ℚ := d.nanoseconds / 10 ^ 9

theorem ofUnits?_eq_some_iff {units : ℕ} {limit : Duration} :
    ofUnits? units = some limit ↔
      units < 2 ^ 64 * unit ∧ IsNearest (units * 10 ^ 9 / unit) limit.nanoseconds := by
  have hnearest := isNearest_roundQuotient (units * perSecond) Binary64.unit_pos
  unfold ofUnits?
  -- the number of units in one is too great to be computed with
  generalize unit = unit at *
  have hcast : ((units * perSecond : ℕ) : ℚ) = units * 10 ^ 9 := by
    rw [perSecond, Nat.pow_eq]
    norm_cast
  rw [hcast] at hnearest
  simp only [Option.ite_none_right_eq_some, Nat.pow_eq, Option.some.injEq]
  refine and_congr_right fun _ => ⟨?_, fun h => ?_⟩
  · rintro rfl
    exact hnearest
  · rw [Duration.mk.injEq]
    exact hnearest.unique h

theorem exists_ofUnits? {units : ℕ} (h : units < 2 ^ 64 * unit) :
    ∃ limit, ofUnits? units = some limit := by
  unfold ofUnits?
  generalize unit = unit at *
  exact ⟨_, if_pos h⟩

end Duration

namespace Timeout

variable {text : String} {limit : Duration} {l : Literal} {q : ℚ} {units : ℕ}

/-! ### Reading -/

/-- Reading a time limit: the text denotes a positive number, which is rounded to `units`, and those
are rounded to the limit. -/
structure Reads (text : String) (limit : Duration) (q : ℚ) (units : ℕ) : Prop where
  decimal : Decimal text.toList q
  positive : 0 < q
  rounds : Rounds (q * unit) units
  ne_zero : units ≠ 0
  fits : units < 2 ^ 64 * unit
  nearest : IsNearest (units * 10 ^ 9 / unit) limit.nanoseconds

theorem exists_literal_of_parse (h : parse text = .ok limit) :
    ∃ l, read? text.toList = some (.finite l) ∧ l.negative = false ∧
      ∃ units, l.magnitude? = some units ∧ units ≠ 0 ∧ Duration.ofUnits? units = some limit := by
  cases hread : read? text.toList with
  | none => simp [parse, hread] at h
  | some reading =>
    cases reading with
    | special => simp [parse, hread] at h
    | finite l =>
      simp only [parse, hread] at h
      split at h
      · simp at h
      · rename_i units hunits
        split at h
        · simp at h
        · rename_i hpositive
          rw [not_or, Bool.not_eq_true] at hpositive
          split at h
          · simp at h
          · rename_i hlimit
            obtain rfl := Except.ok.inj h
            exact ⟨l, rfl, hpositive.1, units, hunits, hpositive.2, hlimit⟩

theorem rounds_magnitude? (h : l.magnitude? = some units) : Rounds (l.absolute * unit) units := by
  rw [l.magnitude?_eq, Option.ite_none_right_eq_some] at h
  obtain rfl := Option.some.inj h.2
  exact l.rounds_nearest

theorem magnitude?_of_rounds (h : Rounds (l.absolute * unit) units)
    (hfits : units < 2 ^ 64 * unit) : l.magnitude? = some units := by
  have hnonneg := mul_nonneg l.absolute_nonneg (Nat.cast_nonneg unit)
  rw [l.magnitude?_eq, l.rounds_nearest.unique h hnonneg, if_pos]
  rw [Binary64.isFinite_iff]
  have hbound : 64 ≤ 1024 := by decide
  generalize 1024 = n at *
  exact hfits.trans_le (Nat.mul_le_mul_right unit (Nat.pow_le_pow_right two_pos hbound))

theorem value_of_not_negative (h : l.negative = false) : l.value = l.absolute := by
  rw [Literal.value, h]
  simp

theorem not_negative_of_value_pos (h : 0 < l.value) : l.negative = false := by
  by_contra hneg
  rw [Bool.not_eq_false] at hneg
  rw [Literal.value, hneg] at h
  simp only [if_true, neg_one_mul] at h
  linarith [l.absolute_nonneg]

/-- The time limits that are read. -/
theorem parse_eq_ok_iff : parse text = .ok limit ↔ ∃ q units, Reads text limit q units := by
  constructor
  · intro h
    obtain ⟨l, hread, hneg, units, hunits, hne, hlimit⟩ := exists_literal_of_parse h
    obtain ⟨fits, nearest⟩ := Duration.ofUnits?_eq_some_iff.1 hlimit
    have rounds := rounds_magnitude? hunits
    have hvalue := value_of_not_negative hneg
    refine ⟨l.value, units, exists_literal_iff.1 ⟨l, hread, rfl⟩, ?_, hvalue ▸ rounds, hne, fits,
      nearest⟩
    rw [hvalue]
    refine l.absolute_nonneg.lt_of_ne fun hzero => hne (rounds.eq_zero ?_)
    rw [← hzero, zero_mul]
    norm_num
  · rintro ⟨q, units, h⟩
    obtain ⟨l, hread, rfl⟩ := exists_literal_iff.2 h.decimal
    have hneg := not_negative_of_value_pos h.positive
    have hunits := magnitude?_of_rounds (value_of_not_negative hneg ▸ h.rounds) h.fits
    have hlimit := Duration.ofUnits?_eq_some_iff.2 ⟨h.fits, h.nearest⟩
    simp only [parse, hread, hunits, hneg, h.ne_zero, Bool.false_eq_true, or_self, if_false, hlimit]

namespace Reads

/-! ### Accuracy -/

theorem unit_bound : (2 ^ 52 : ℕ) * 10 ^ 9 * 2 ≤ unit := by
  have hunit : unit = 2 ^ 83 * 2 ^ 991 := Binary64.unit_eq (Nat.add_comm 83 991)
  have hpos : 0 < (2 : ℕ) ^ 991 := pow_pos two_pos 991
  -- the number of steps is too great to be computed with
  generalize (2 : ℕ) ^ 991 = steps at *
  rw [hunit]
  exact le_trans (by norm_num) (Nat.le_mul_of_pos_right _ hpos)

/-- A value with fewer than 53 significant bits is rounded to nothing. -/
theorem nanoseconds_eq_zero (h : Reads text limit q units) (hsmall : q * unit < 2 ^ 52) :
    limit.nanoseconds = 0 := by
  have hunit : (0 : ℚ) < unit := Nat.cast_pos.2 Binary64.unit_pos
  have hgrid : Rounds ((1 * 2 ^ 52 : ℕ) : ℚ) (1 * 2 ^ 52) :=
    .natCast (Binary64.spacing_dvd (by norm_num) 52)
  have hunits : units ≤ 1 * 2 ^ 52 :=
    h.rounds.mono hgrid (Nat.cast_nonneg _) (by exact_mod_cast hsmall.le)
  rw [Nat.one_mul] at hunits
  have hbound : units * 10 ^ 9 * 2 ≤ unit :=
    le_trans (Nat.mul_le_mul_right 2 (Nat.mul_le_mul_right _ hunits)) unit_bound
  refine Nat.le_zero.1 ((h.nearest.le_iff_of_even (by decide)).2 ?_)
  have hcast : (units : ℚ) * 10 ^ 9 * 2 ≤ unit := by exact_mod_cast hbound
  rw [div_le_iff₀ hunit, Nat.cast_zero]
  linarith

/-- The limit differs from what the text denotes by half a nanosecond and the part `2 ^ (-53)` of it
at most. -/
theorem accurate (h : Reads text limit q units) :
    |limit.inSeconds - q| ≤ 1 / (2 * 10 ^ 9) + q / 2 ^ 53 := by
  have hunit : (0 : ℚ) < unit := Nat.cast_pos.2 Binary64.unit_pos
  have hq := h.positive
  rcases lt_or_ge (q * unit) (2 ^ 52) with hsmall | hlarge
  · have hbound : (2 : ℚ) ^ 52 * 10 ^ 9 * 2 ≤ unit := by exact_mod_cast unit_bound
    have hle : q * (2 * 10 ^ 9) ≤ 1 := by
      refine le_of_mul_le_mul_right ?_ hunit
      linarith
    rw [Duration.inSeconds, h.nanoseconds_eq_zero hsmall, Nat.cast_zero, zero_div, zero_sub,
      abs_neg, abs_of_pos hq]
    rw [← le_div_iff₀ (by norm_num)] at hle
    exact hle.trans (le_add_of_nonneg_right (by positivity))
  · have hbinary := h.rounds.abs_sub_le (by positivity)
    rw [max_eq_right (by linarith)] at hbinary
    have hseconds : |(units : ℚ) / unit - q| ≤ q / 2 ^ 53 := by
      rw [div_sub' hunit.ne', abs_div, abs_of_pos hunit, div_le_iff₀ hunit, mul_comm (unit : ℚ)]
      linarith
    have hnano : |limit.inSeconds - units / unit| ≤ 1 / (2 * 10 ^ 9) := by
      have h := h.nearest.near
      rw [mul_div_right_comm] at h
      rw [Duration.inSeconds, abs_sub_comm]
      rw [abs_le] at h ⊢
      constructor <;> linarith
    calc |limit.inSeconds - q|
        ≤ |limit.inSeconds - units / unit| + |(units : ℚ) / unit - q| := abs_sub_le _ _ _
      _ ≤ 1 / (2 * 10 ^ 9) + q / 2 ^ 53 := add_le_add hnano hseconds

/-! ### Monotonicity -/

theorem mono {text' : String} {limit' : Duration} {q' : ℚ} {units' : ℕ}
    (h : Reads text limit q units) (h' : Reads text' limit' q' units') (hle : q ≤ q') :
    limit.nanoseconds ≤ limit'.nanoseconds := by
  have hunit : (0 : ℚ) < unit := Nat.cast_pos.2 Binary64.unit_pos
  have hunits : units ≤ units' :=
    h.rounds.mono h'.rounds (mul_nonneg h'.positive.le hunit.le)
      (mul_le_mul_of_nonneg_right hle hunit.le)
  refine h.nearest.mono h'.nearest (div_le_div_of_nonneg_right ?_ hunit.le)
  exact mul_le_mul_of_nonneg_right (by exact_mod_cast hunits) (by positivity)

end Reads

/-! ### The limits that are accepted -/

theorem exists_parse_of_rounds (decimal : Decimal text.toList q) (positive : 0 < q)
    (rounds : Rounds (q * unit) units) (ne_zero : units ≠ 0) (fits : units < 2 ^ 64 * unit) :
    ∃ limit, parse text = .ok limit := by
  obtain ⟨limit, hlimit⟩ := Duration.exists_ofUnits? fits
  have nearest := (Duration.ofUnits?_eq_some_iff.1 hlimit).2
  exact ⟨limit, parse_eq_ok_iff.2 ⟨q, units, decimal, positive, rounds, ne_zero, fits, nearest⟩⟩

theorem ten_pow_nine_le_unit : 10 ^ 9 ≤ unit :=
  le_trans (by norm_num) Reads.unit_bound

/-- Every literal from a nanosecond up to the greatest binary number below `2 ^ 64` is read. -/
theorem exists_parse_of_decimal (h : Decimal text.toList q) (hge : 1 / 10 ^ 9 ≤ q)
    (hle : q ≤ 2 ^ 64 - 2 ^ 11) : ∃ limit, parse text = .ok limit := by
  obtain ⟨l, -, rfl⟩ := exists_literal_iff.2 h
  have hpos : 0 < l.value := lt_of_lt_of_le (by norm_num) hge
  have hvalue := value_of_not_negative (not_negative_of_value_pos hpos)
  have hunit : (0 : ℚ) < unit := Nat.cast_pos.2 Binary64.unit_pos
  rw [hvalue] at h hge hle hpos
  refine exists_parse_of_rounds h hpos l.rounds_nearest ?_ ?_
  · have hunit' : (10 ^ 9 : ℚ) ≤ unit := by exact_mod_cast ten_pow_nine_le_unit
    have hone : 1 * 2 ^ 0 ≤ Binary64.nearest l.quotient.1 l.quotient.2 := by
      refine (Rounds.natCast (Binary64.spacing_dvd (by norm_num) 0)).mono l.rounds_nearest
        (mul_nonneg hpos.le hunit.le) ?_
      calc ((1 * 2 ^ 0 : ℕ) : ℚ) = 1 / 10 ^ 9 * 10 ^ 9 := by norm_num
        _ ≤ l.absolute * unit := mul_le_mul hge hunit' (by positivity) hpos.le
    exact Nat.pos_iff_ne_zero.1 hone
  · refine lt_of_le_of_lt (l.nearest_le (k := 2 ^ 53 - 1) (e := 11) (by norm_num) ?_) ?_
    · norm_num at hle ⊢
      exact hle
    · exact Nat.mul_lt_mul_of_pos_right (by norm_num) Binary64.unit_pos

/-- A literal that is not positive is refused. -/
theorem parse_of_nonpos (h : Decimal text.toList q) (hle : q ≤ 0) :
    parse text = .error (.notPositive text) := by
  obtain ⟨l, hread, rfl⟩ := exists_literal_iff.2 h
  simp only [parse, hread]
  split
  · rfl
  · rename_i units hunits
    rw [if_pos]
    by_contra hpositive
    rw [not_or, Bool.not_eq_true] at hpositive
    rw [value_of_not_negative hpositive.1] at hle
    have hzero : l.absolute = 0 := le_antisymm hle l.absolute_nonneg
    refine hpositive.2 ((rounds_magnitude? hunits).eq_zero ?_)
    rw [hzero, zero_mul]
    norm_num

/-- A literal of at least `2 ^ 64` is refused. -/
theorem parse_of_two_pow_le (h : Decimal text.toList q) (hge : 2 ^ 64 ≤ q) :
    parse text = .error .tooGreat ∨ parse text = .error (.notPositive text) := by
  obtain ⟨l, hread, rfl⟩ := exists_literal_iff.2 h
  have hpos : 0 < l.value := lt_of_lt_of_le (by norm_num) hge
  have hneg := not_negative_of_value_pos hpos
  simp only [parse, hread]
  split
  · exact .inr rfl
  · rename_i units hunits
    split
    · exact .inr rfl
    · have hlarge : 1 * 2 ^ 64 * unit ≤ units := by
        rw [value_of_not_negative hneg] at hge
        have hle := l.le_nearest (k := 1) (e := 64) (by norm_num) (by exact_mod_cast hge)
        rwa [l.rounds_nearest.unique (rounds_magnitude? hunits)
          (mul_nonneg l.absolute_nonneg (Nat.cast_nonneg unit))] at hle
      rw [Nat.one_mul] at hlarge
      cases hlimit : Duration.ofUnits? units with
      | none => exact .inl rfl
      | some limit => exact absurd (Duration.ofUnits?_eq_some_iff.1 hlimit).1 (not_lt.2 hlarge)

/-- Reading time limits is accurate and monotone.  It accepts the limits from a nanosecond up to the
greatest binary number below `2 ^ 64` seconds, and it refuses those that are not positive or that
have at least `2 ^ 64` seconds. -/
theorem parse_decimal (text : String) (q : ℚ) (h : Decimal text.toList q) :
    (∀ limit, parse text = .ok limit → |limit.inSeconds - q| ≤ 1 / (2 * 10 ^ 9) + q / 2 ^ 53) ∧
    (∀ text' q' limit limit', Decimal text'.toList q' → q ≤ q' → parse text = .ok limit →
      parse text' = .ok limit' → limit.nanoseconds ≤ limit'.nanoseconds) ∧
    (1 / 10 ^ 9 ≤ q → q ≤ 2 ^ 64 - 2 ^ 11 → ∃ limit, parse text = .ok limit) ∧
    (q ≤ 0 → parse text = .error (.notPositive text)) ∧
    (2 ^ 64 ≤ q → parse text = .error .tooGreat ∨ parse text = .error (.notPositive text)) := by
  have reads : ∀ {text q limit}, Decimal text.toList q → parse text = .ok limit →
      ∃ units, Reads text limit q units := by
    intro text q limit h hparse
    obtain ⟨q', units, hreads⟩ := parse_eq_ok_iff.1 hparse
    exact ⟨units, hreads.decimal.unique h ▸ hreads⟩
  refine ⟨fun limit hparse => ?_, fun text' q' limit limit' h' hle hparse hparse' => ?_,
    exists_parse_of_decimal h, parse_of_nonpos h, parse_of_two_pow_le h⟩
  · obtain ⟨units, hreads⟩ := reads h hparse
    exact hreads.accurate
  · obtain ⟨units, hreads⟩ := reads h hparse
    obtain ⟨units', hreads'⟩ := reads h' hparse'
    exact hreads.mono hreads' hle

/-- A literal in the middle between 999999999 nanoseconds and a second is not carried to the second:
its binary number lies below the middle. -/
theorem parse_decimal_carry : Decimal "0.9999999995".toList (9999999995 / 10 ^ 10) ∧
    parse "0.9999999995" = .ok ⟨999999999⟩ ∧
    |(⟨999999999⟩ : Duration).inSeconds - 9999999995 / 10 ^ 10| ≤
      1 / (2 * 10 ^ 9) + 9999999995 / 10 ^ 10 / 2 ^ 53 := by
  have decimal : Decimal "0.9999999995".toList (9999999995 / 10 ^ 10) := by
    refine exists_literal_iff.1 ⟨⟨false, 9999999995, -10⟩, by decide +kernel, ?_⟩
    norm_num [Literal.value, Literal.absolute]
  have accepted : parse "0.9999999995" = .ok ⟨999999999⟩ := by decide +kernel
  exact ⟨decimal, accepted, (parse_decimal _ _ decimal).1 _ accepted⟩

end Timeout

end Touchstone
