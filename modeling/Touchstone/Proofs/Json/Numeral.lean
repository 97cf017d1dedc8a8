import Touchstone.Proofs.Json.Grammar

/-!
# Reading numerals

A numeral is read part by part: the digits in front of the point, the fraction, the exponent.

## Main definitions

* `Touchstone.Json.numeral?` : read a numeral.

## Main results

* `Touchstone.Json.numeral?_eq_some_iff` : numerals are read as the grammar says.
-/

namespace Touchstone.Json

open Number (ofDigits)

/-! ### Runs of characters -/

/-- The longest run of characters that pass a test, and what comes after it. -/
theorem run_iff {p : Char → Bool} {text run rest : List Char} :
    text.takeWhile p = run ∧ text.dropWhile p = rest ↔
      text = run ++ rest ∧ (∀ c ∈ run, p c) ∧ ∀ c ∈ rest.head?, ¬p c := by
  constructor
  · rintro ⟨rfl, rfl⟩
    refine ⟨List.takeWhile_append_dropWhile.symm, fun c => List.mem_takeWhile_imp, ?_⟩
    intro c hc
    have hnot := List.head?_dropWhile_not p text
    rw [hc] at hnot
    simpa using hnot
  · rintro ⟨rfl, hrun, hrest⟩
    rw [List.takeWhile_append_of_pos hrun, List.dropWhile_append_of_pos hrun]
    cases rest with
    | nil => simp
    | cons c rest =>
      have hc : ¬p c := hrest c rfl
      simp [hc]

/-! ### Numerals -/

instance : DecidablePred IsDigits := fun _ => inferInstanceAs (Decidable (_ ∧ _))

/-- Read the fraction in front of a text. -/
def fraction? : List Char → Option (List Char × List Char)
  | '.' :: text =>
    if IsDigits (text.takeWhile Char.isDigit) then
      some (text.takeWhile Char.isDigit, text.dropWhile Char.isDigit)
    else none
  | text => some ([], text)

/-- Read a number that is not negative. -/
def magnitude? (text : List Char) : Option ℚ :=
  let whole := text.takeWhile Char.isDigit
  if IsDigits whole ∧ (whole.head? = some '0' → whole = ['0']) then do
    let (fraction, rest) ← fraction? (text.dropWhile Char.isDigit)
    let e ← Number.exponent? rest
    return ofDigits (whole ++ fraction) * 10 ^ (e - fraction.length)
  else none

/-- Read a number. -/
def numeral? : List Char → Option ℚ
  | '-' :: text => (magnitude? text).map (-·)
  | text => magnitude? text

/-! ### Fractions and exponents -/

theorem Fraction.fraction?_append {point fraction rest : List Char} (h : Fraction point fraction)
    (hrest : ∀ c ∈ rest.head?, c ≠ '.' ∧ ¬c.isDigit) :
    fraction? (point ++ rest) = some (fraction, rest) := by
  cases h with
  | absent =>
    rw [List.nil_append, fraction?]
    rintro text rfl
    exact (hrest '.' rfl).1 rfl
  | present hdigits =>
    have hrun := run_iff.2 ⟨rfl, hdigits.2, fun c hc => (hrest c hc).2⟩
    rw [List.cons_append, fraction?, hrun.1, hrun.2, if_pos hdigits]

theorem fraction_of_fraction? {text fraction rest : List Char}
    (h : fraction? text = some (fraction, rest)) :
    ∃ point, text = point ++ rest ∧ Fraction point fraction := by
  unfold fraction? at h
  split at h
  next text =>
    split at h
    next hdigits =>
      cases h
      exact ⟨_, by simp, .present hdigits⟩
    next => cases h
  next =>
    cases h
    exact ⟨[], rfl, .absent⟩

theorem toLower_eq_e_iff (c : Char) : c.toLower = 'e' ↔ c = 'e' ∨ c = 'E' := by
  constructor
  · intro h
    by_cases hc : c.isUpper
    · have hle : c.toNat ≤ 90 := by
        simp only [Char.isUpper, decide_eq_true_eq] at hc
        exact hc.2
      have hnat : (Char.ofNat (c.toNat + 32)).toNat = c.toNat + 32 := by
        rw [Char.toNat_ofNat, if_pos (Or.inl (by omega))]
      rw [← Char.toLower_eq_of_isUpper hc, h] at hnat
      have hE : 'e'.toNat = 'E'.toNat + 32 := rfl
      exact .inr (Char.toNat_inj.1 (by omega))
    · rw [Char.toLower_eq_of_not_isUpper hc] at h
      exact .inl h
  · rintro (rfl | rfl) <;> rfl

theorem splitSign_append {sign text : List Char} {negative : Bool} (hsign : Sign sign negative)
    (h : ∀ c ∈ text.head?, c ≠ '-' ∧ c ≠ '+') :
    Number.splitSign (sign ++ text) = (negative, text) := by
  cases hsign with
  | absent =>
    rw [List.nil_append, Number.splitSign]
    · rintro rest rfl
      exact (h '-' rfl).1 rfl
    · rintro rest rfl
      exact (h '+' rfl).2 rfl
  | plus => rfl
  | minus => rfl

theorem IsDigits.head? {digits : List Char} (h : IsDigits digits) :
    ∀ c ∈ digits.head?, c ≠ '-' ∧ c ≠ '+' := by
  intro c hc
  have hdigit := h.2 c (List.mem_of_mem_head? hc)
  constructor <;> rintro rfl <;> exact absurd hdigit (by decide)

theorem sign_of_splitSign (text : List Char) :
    ∃ sign, Sign sign (Number.splitSign text).1 ∧ text = sign ++ (Number.splitSign text).2 := by
  unfold Number.splitSign
  split
  · exact ⟨_, .minus, rfl⟩
  · exact ⟨_, .plus, rfl⟩
  · exact ⟨_, .absent, rfl⟩

theorem exponent?_eq_some_iff {text : List Char} {e : ℤ} :
    Number.exponent? text = some e ↔ Exponent text e := by
  constructor
  · intro h
    cases text with
    | nil =>
      cases h
      exact .absent
    | cons c text =>
      obtain ⟨sign, hsign, htext⟩ := sign_of_splitSign text
      rw [Number.exponent?] at h
      dsimp only at h
      split at h
      next hif =>
        cases h
        obtain ⟨he, hne, hdigits⟩ := hif
        have hpresent := Exponent.present ((toLower_eq_e_iff c).1 he) hsign
          ⟨by simpa using hne, by simpa using hdigits⟩
        rwa [List.cons_append, ← htext] at hpresent
      next => cases h
  · rintro (_ | ⟨he, hsign, hdigits⟩)
    · rfl
    · rw [List.cons_append, Number.exponent?, splitSign_append hsign hdigits.head?]
      refine if_pos ⟨(toLower_eq_e_iff _).2 he, ?_, ?_⟩
      · simpa using hdigits.1
      · simpa using hdigits.2

theorem Exponent.head? {text : List Char} {e : ℤ} (h : Exponent text e) :
    ∀ c ∈ text.head?, c ≠ '.' ∧ ¬c.isDigit := by
  rintro c hc
  cases h with
  | absent => cases hc
  | present he =>
    cases hc
    rcases he with rfl | rfl <;> decide

theorem Fraction.head? {point fraction text : List Char} (h : Fraction point fraction)
    (htext : ∀ c ∈ text.head?, ¬c.isDigit) : ∀ c ∈ (point ++ text).head?, ¬c.isDigit := by
  cases h with
  | absent => exact htext
  | present =>
    rintro c hc
    cases hc
    decide

/-! ### Whole numerals -/

theorem magnitude?_eq_some_iff {text : List Char} {q : ℚ} :
    magnitude? text = some q ↔ Magnitude text q := by
  constructor
  · intro h
    rw [magnitude?] at h
    dsimp only at h
    split at h
    next hwhole =>
      simp only [Option.bind_eq_bind, Option.bind_eq_some_iff, Prod.exists] at h
      obtain ⟨fraction, rest, hfraction, e, he, hq⟩ := h
      cases hq
      obtain ⟨point, hrest, hpoint⟩ := fraction_of_fraction? hfraction
      have hm := Magnitude.mk hwhole.1 hwhole.2 hpoint (exponent?_eq_some_iff.1 he)
      rwa [List.append_assoc, ← hrest, List.takeWhile_append_dropWhile] at hm
    next => cases h
  · rintro ⟨hwhole, hzero, hfraction, he⟩
    have hrun := run_iff.2 ⟨rfl, hwhole.2, hfraction.head? fun c hc => (he.head? c hc).2⟩
    rw [magnitude?, List.append_assoc, hrun.1, hrun.2, if_pos ⟨hwhole, hzero⟩,
      hfraction.fraction?_append he.head?]
    dsimp only [Option.bind_eq_bind, Option.bind_some]
    rw [exponent?_eq_some_iff.2 he]
    rfl

theorem Magnitude.isDigit_head {text : List Char} {q : ℚ} (h : Magnitude text q) :
    ∃ c rest, text = c :: rest ∧ c.isDigit := by
  obtain ⟨hwhole, -, -, -⟩ := h
  obtain ⟨c, rest, rfl⟩ := List.exists_cons_of_ne_nil hwhole.1
  exact ⟨c, _, rfl, hwhole.2 c (by simp)⟩

/-- The numerals are read as the grammar says. -/
theorem numeral?_eq_some_iff {text : List Char} {q : ℚ} :
    numeral? text = some q ↔ Numeral text q := by
  constructor
  · intro h
    unfold numeral? at h
    split at h
    next text =>
      obtain ⟨p, hp, rfl⟩ := Option.map_eq_some_iff.1 h
      exact .negative (magnitude?_eq_some_iff.1 hp)
    next => exact .positive (magnitude?_eq_some_iff.1 h)
  · rintro (h | h)
    · rw [numeral?, magnitude?_eq_some_iff.2 h]
      rintro rest rfl
      obtain ⟨c, rest, hc, hdigit⟩ := h.isDigit_head
      cases hc
      exact absurd hdigit (by decide)
    · rw [numeral?, magnitude?_eq_some_iff.2 h]
      rfl

theorem Numeral.exists_cons {text : List Char} {q : ℚ} (h : Numeral text q) :
    ∃ c rest, text = c :: rest ∧ (c = '-' ∨ c.isDigit) := by
  cases h with
  | positive h =>
    obtain ⟨c, rest, rfl, hc⟩ := h.isDigit_head
    exact ⟨c, rest, rfl, .inr hc⟩
  | negative h => exact ⟨'-', _, rfl, .inl rfl⟩

/-! ### The characters of numerals -/

theorem IsDigits.isNumeric {digits : List Char} (h : IsDigits digits) :
    ∀ c ∈ digits, isNumeric c := by
  intro c hc
  simp [Json.isNumeric, h.2 c hc]

theorem Fraction.isNumeric {point fraction : List Char} (h : Fraction point fraction) :
    ∀ c ∈ point, isNumeric c := by
  cases h with
  | absent => simp
  | present hdigits => exact List.forall_mem_cons.2 ⟨by decide, hdigits.isNumeric⟩

theorem Exponent.isNumeric {text : List Char} {e : ℤ} (h : Exponent text e) :
    ∀ c ∈ text, isNumeric c := by
  cases h with
  | absent => simp
  | present he hsign hdigits =>
    refine List.forall_mem_append.2 ⟨List.forall_mem_cons.2 ⟨?_, ?_⟩, hdigits.isNumeric⟩
    · rcases he with rfl | rfl <;> decide
    · cases hsign <;> simp [Json.isNumeric]

theorem Magnitude.isNumeric {text : List Char} {q : ℚ} (h : Magnitude text q) :
    ∀ c ∈ text, isNumeric c := by
  obtain ⟨hwhole, -, hfraction, he⟩ := h
  simp only [List.forall_mem_append]
  exact ⟨⟨hwhole.isNumeric, hfraction.isNumeric⟩, he.isNumeric⟩

theorem Numeral.isNumeric {text : List Char} {q : ℚ} (h : Numeral text q) :
    ∀ c ∈ text, isNumeric c := by
  cases h with
  | positive h => exact h.isNumeric
  | negative h => exact List.forall_mem_cons.2 ⟨by decide, h.isNumeric⟩

end Touchstone.Json
