import Touchstone.Proofs.Json.Numeral

/-!
# The grammar of decimal literals

A decimal literal is a sign, digits with a point among them or around them, and an exponent.  The
sign, the point and the exponent may be left out, but at least one digit has to be there.

## Main definitions

* `Touchstone.Number.Decimal` : the decimal literals, with the rational numbers that they denote.
* `Touchstone.Number.Literal.value` : the rational number that a literal denotes.

## Main results

* `Touchstone.Number.exists_literal_iff` : the literals that are read are those of the grammar.
-/

namespace Touchstone.Number

open Json (Exponent Sign run_iff)

/-! ### Grammar -/

/-- A point and any number of digits, or nothing, with the digits. -/
inductive Decimals : List Char → List Char → Prop
  | absent : Decimals [] []
  | present {digits : List Char} (h : ∀ c ∈ digits, c.isDigit) : Decimals ('.' :: digits) digits

/-- A literal without its sign, with its digits as a number and the power of ten of the last one. -/
inductive Unsigned : List Char → ℕ → ℤ → Prop
  | mk {whole point fraction exponent : List Char} {e : ℤ} (hwhole : ∀ c ∈ whole, c.isDigit)
      (hpoint : Decimals point fraction) (hdigits : whole ≠ [] ∨ fraction ≠ [])
      (hexponent : Exponent exponent e) :
      Unsigned (whole ++ point ++ exponent) (ofDigits (whole ++ fraction)) (e - fraction.length)

/-- A decimal literal denotes a rational number. -/
inductive Decimal : List Char → ℚ → Prop
  | mk {sign text : List Char} {negative : Bool} {digits : ℕ} {e : ℤ}
      (hsign : Sign sign negative) (htext : Unsigned text digits e) :
      Decimal (sign ++ text) ((if negative then -1 else 1) * (digits * 10 ^ e))

/-- The number that a literal denotes without its sign. -/
def Literal.absolute (l : Literal) : ℚ := l.digits * 10 ^ l.exponent

/-- The number that a literal denotes. -/
def Literal.value (l : Literal) : ℚ := (if l.negative then -1 else 1) * l.absolute

/-! ### Literals without a sign -/

variable {text : List Char} {negative : Bool} {l : Literal}

theorem Decimals.head? {point fraction exponent : List Char} {e : ℤ}
    (hpoint : Decimals point fraction) (hexponent : Exponent exponent e) :
    ∀ c ∈ (point ++ exponent).head?, ¬c.isDigit := by
  cases hpoint with
  | absent => exact fun c hc => (hexponent.head? c hc).2
  | present =>
    rintro c hc
    cases hc
    decide

theorem Unsigned.unsigned? {digits : ℕ} {e : ℤ} (h : Unsigned text digits e) :
    unsigned? negative text = some ⟨negative, digits, e⟩ := by
  obtain ⟨hwhole, hpoint, hdigits, hexponent⟩ := h
  have hrun := run_iff.2 ⟨List.append_assoc .., hwhole, hpoint.head? hexponent⟩
  rw [Number.unsigned?, hrun.1, hrun.2]
  cases hpoint with
  | @absent =>
    have hhead : ¬(_ : List Char).head? = some '.' := fun hc => (hexponent.head? _ hc).1 rfl
    simp only [List.nil_append, if_neg hhead, List.takeWhile_nil,
      Json.exponent?_eq_some_iff.2 hexponent]
    rw [if_neg (by simpa using hdigits)]
    rfl
  | present hfraction =>
    have hrun := run_iff.2 ⟨rfl, hfraction, fun c hc => (hexponent.head? c hc).2⟩
    simp only [List.cons_append, List.head?_cons, if_true, List.tail_cons, hrun.1, hrun.2,
      Json.exponent?_eq_some_iff.2 hexponent]
    rw [if_neg (by simpa [or_iff_not_imp_left] using hdigits)]
    rfl

theorem unsigned_of_unsigned? (h : unsigned? negative text = some l) :
    l.negative = negative ∧ Unsigned text l.digits l.exponent := by
  obtain ⟨hsplit, hwhole, -⟩ := run_iff.1 (⟨rfl, rfl⟩ : text.takeWhile Char.isDigit = _ ∧ _)
  rw [unsigned?] at h
  generalize text.takeWhile Char.isDigit = whole at *
  generalize text.dropWhile Char.isDigit = after at *
  subst hsplit
  by_cases hpoint : after.head? = some '.'
  · obtain ⟨rest, rfl⟩ : ∃ rest, after = '.' :: rest := List.head?_eq_some_iff.1 hpoint
    obtain ⟨hrest, hfraction, -⟩ := run_iff.1 (⟨rfl, rfl⟩ : rest.takeWhile Char.isDigit = _ ∧ _)
    simp only [List.head?_cons, if_true, List.tail_cons, Option.ite_none_left_eq_some,
      Option.map_eq_some_iff, Json.exponent?_eq_some_iff] at h
    obtain ⟨hdigits, e, he, rfl⟩ := h
    have hliteral := Unsigned.mk hwhole (.present hfraction)
      (by simpa [or_iff_not_imp_left] using hdigits) he
    rw [List.append_assoc, List.cons_append, ← hrest] at hliteral
    exact ⟨rfl, hliteral⟩
  · simp only [if_neg hpoint, List.takeWhile_nil, Option.ite_none_left_eq_some,
      Option.map_eq_some_iff, Json.exponent?_eq_some_iff] at h
    obtain ⟨hdigits, e, he, rfl⟩ := h
    have hliteral := Unsigned.mk hwhole .absent (.inl (by simpa using hdigits)) he
    exact ⟨rfl, by simpa using hliteral⟩

/-! ### Literals with a sign -/

theorem Unsigned.exists_cons {digits : ℕ} {e : ℤ} (h : Unsigned text digits e) :
    ∃ c rest, text = c :: rest ∧ (c.isDigit ∨ c = '.') := by
  obtain ⟨hwhole, hpoint, hdigits, -⟩ := h
  cases hpoint with
  | absent =>
    obtain ⟨c, rest, rfl⟩ := List.exists_cons_of_ne_nil (hdigits.resolve_right (· rfl))
    exact ⟨c, _, rfl, .inl (hwhole c (by simp))⟩
  | present =>
    rename_i whole _ _ _ _
    cases whole with
    | nil => exact ⟨'.', _, rfl, .inr rfl⟩
    | cons c rest => exact ⟨c, _, rfl, .inl (hwhole c (by simp))⟩

theorem Unsigned.head? {digits : ℕ} {e : ℤ} (h : Unsigned text digits e) :
    ∀ c ∈ text.head?, c ≠ '-' ∧ c ≠ '+' := by
  obtain ⟨c, rest, rfl, hc⟩ := h.exists_cons
  rintro _ ⟨⟩
  constructor <;> rintro rfl <;> exact absurd hc (by decide)

/-- The words for values that are not finite begin with letters. -/
theorem Unsigned.not_special {digits : ℕ} {e : ℤ} (h : Unsigned text digits e) :
    ¬specialWords.any fun word => word.toList = text.map Char.toLower := by
  obtain ⟨c, rest, rfl, hc⟩ := h.exists_cons
  have hlower : c.toLower = c := by
    refine Char.toLower_eq_of_not_isUpper fun hupper => ?_
    rcases hc with hdigit | rfl
    · simp only [Char.isUpper, Char.isDigit, Bool.and_eq_true, decide_eq_true_eq] at hupper hdigit
      have hge : 65 ≤ c.toNat := hupper.1
      have hle : c.toNat ≤ 57 := hdigit.2
      omega
    · exact absurd hupper (by decide)
  have hi : c ≠ 'i' := by
    rintro rfl
    exact absurd hc (by decide)
  have hn : c ≠ 'n' := by
    rintro rfl
    exact absurd hc (by decide)
  simp [specialWords, hlower, hi.symm, hn.symm]

/-- The literals that are read are those of the grammar, with the numbers that they denote. -/
theorem exists_literal_iff {q : ℚ} :
    (∃ l, read? text = some (.finite l) ∧ l.value = q) ↔ Decimal text q := by
  constructor
  · rintro ⟨l, hread, rfl⟩
    obtain ⟨sign, hsign, htext⟩ := Json.sign_of_splitSign text
    rw [read?] at hread
    generalize splitSign text = parts at *
    obtain ⟨negative, rest⟩ := parts
    dsimp only at hsign htext hread
    split at hread
    · simp at hread
    · obtain ⟨l', hl, hfinite⟩ := Option.map_eq_some_iff.1 hread
      obtain rfl := Reading.finite.inj hfinite
      obtain ⟨rfl, hunsigned⟩ := unsigned_of_unsigned? hl
      rw [htext]
      exact .mk hsign hunsigned
  · rintro ⟨hsign, hunsigned⟩
    refine ⟨⟨_, _, _⟩, ?_, rfl⟩
    rw [read?, Json.splitSign_append hsign hunsigned.head?]
    simp only [if_neg hunsigned.not_special, hunsigned.unsigned?, Option.map_some]

theorem Decimal.unique {p q : ℚ} (hp : Decimal text p) (hq : Decimal text q) : p = q := by
  obtain ⟨l, hl, rfl⟩ := exists_literal_iff.2 hp
  obtain ⟨l', hl', rfl⟩ := exists_literal_iff.2 hq
  rw [hl] at hl'
  cases hl'
  rfl

end Touchstone.Number
