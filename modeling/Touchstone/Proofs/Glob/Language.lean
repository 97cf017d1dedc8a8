import Mathlib
import Touchstone.Glob.Matcher

/-!
# The language of a glob pattern

A glob pattern stands for a set of names, its language.  The tokens of a pattern are concatenated,
and the live branches of a group are united.  The matcher follows the places of a name that can have
been reached; a place is reached from another one if the stretch between them belongs to the
language.

## Main definitions

* `Touchstone.Glob.language` : the language of a pattern.
* `Touchstone.Glob.Carries` : the places that are reached by the words of a language.

## Main results

* `Touchstone.Glob.carries_advance` : a pattern reaches places by the words of its language.
* `Touchstone.Glob.matchesName_iff` : a pattern matches the names of its language.
-/

namespace Touchstone.Glob

/-! ### Languages -/

/-- The words of one byte that satisfies `p`. -/
def bytes (p : UInt8 → Bool) : Language UInt8 := {w | ∃ b, w = [b] ∧ p b}

/-- The word of one slash. -/
def slashes : Language UInt8 := bytes (· == '/'.toUInt8)

mutual

/-- The language of a token. -/
def Token.language : Token → Language UInt8
  | .literal c => {String.utf8EncodeChar c}
  | .anyByte => bytes fun _ => true
  | .anyBytes => ⊤
  | .dirsBefore => 1 + ⊤ * slashes
  | .dirsAfter => slashes * ⊤
  | .dirsBetween => slashes + slashes * ⊤ * slashes
  | .oneOf negated ranges => bytes (inClass negated ranges)
  | .alternates branches => if anyLive branches then anyLanguage branches else 1

/-- The language of a pattern. -/
def language : List Token → Language UInt8
  | [] => 1
  | t :: ts => t.language * language ts

/-- The union of the languages of live branches. -/
def anyLanguage : List (List Token) → Language UInt8
  | [] => 0
  | branch :: branches => (if isLive branch then language branch else 0) + anyLanguage branches

end

theorem anyLive_iff {branches : List (List Token)} :
    anyLive branches = true ↔ ∃ branch ∈ branches, isLive branch = true := by
  induction branches with
  | nil => simp [anyLive]
  | cons branch branches ih => simp [anyLive, ih]

theorem mem_anyLanguage {branches : List (List Token)} {w : List UInt8} :
    w ∈ anyLanguage branches ↔ ∃ branch ∈ branches, isLive branch = true ∧ w ∈ language branch := by
  induction branches with
  | nil => simp [anyLanguage]
  | cons branch branches ih =>
    rw [anyLanguage, Language.mem_add, ih]
    cases hlive : isLive branch <;> simp [hlive]

/-! ### Stretches of a name -/

variable {name : List UInt8} {L M : Language UInt8} {r s t : Reached} {i j : ℕ}

/-- A word of the language lies between the places `i` and `j` of a name. -/
def Between (name : List UInt8) (L : Language UInt8) (i j : ℕ) : Prop :=
  ∃ before word after, name = before ++ word ++ after ∧ word ∈ L ∧ i = before.length ∧
    j = (before ++ word).length

theorem between_one : Between name 1 i j ↔ i = j ∧ j ≤ name.length := by
  constructor
  · rintro ⟨before, word, after, rfl, hword, rfl, rfl⟩
    obtain rfl := (Language.mem_one word).1 hword
    simp
  · rintro ⟨rfl, hle⟩
    exact ⟨name.take i, [], name.drop i, by simp, rfl, by simpa using hle, by simpa using hle⟩

theorem between_top : Between name ⊤ i j ↔ i ≤ j ∧ j ≤ name.length := by
  constructor
  · rintro ⟨before, word, after, rfl, -, rfl, rfl⟩
    simp
  · rintro ⟨hij, hle⟩
    refine ⟨name.take i, (name.drop i).take (j - i), name.drop j, ?_, trivial, ?_, ?_⟩
    · rw [← List.take_add, Nat.add_sub_cancel' hij, List.take_append_drop]
    · simp
      omega
    · simp
      omega

theorem between_add : Between name (L + M) i j ↔ Between name L i j ∨ Between name M i j := by
  constructor
  · rintro ⟨before, word, after, hname, hword | hword, hi, hj⟩
    · exact .inl ⟨before, word, after, hname, hword, hi, hj⟩
    · exact .inr ⟨before, word, after, hname, hword, hi, hj⟩
  · rintro (⟨before, word, after, hname, hword, h⟩ | ⟨before, word, after, hname, hword, h⟩)
    · exact ⟨before, word, after, hname, .inl hword, h⟩
    · exact ⟨before, word, after, hname, .inr hword, h⟩

theorem between_mul :
    Between name (L * M) i j ↔ ∃ k, Between name L i k ∧ Between name M k j := by
  constructor
  · rintro ⟨before, word, after, rfl, hword, rfl, rfl⟩
    obtain ⟨u, hu, v, hv, rfl⟩ := Language.mem_mul.1 hword
    exact ⟨_, ⟨before, u, v ++ after, by simp, hu, rfl, rfl⟩,
      ⟨before ++ u, v, after, by simp, hv, rfl, by simp⟩⟩
  · rintro ⟨k, ⟨before, u, after, hname, hu, rfl, rfl⟩, ⟨before', v, after', hname', hv, hk, rfl⟩⟩
    have hsplit : before ++ u = before' ∧ after = v ++ after' := by
      refine List.append_inj ?_ hk
      rw [← hname, hname', List.append_assoc]
    obtain ⟨rfl, rfl⟩ := hsplit
    exact ⟨before, u ++ v, after', by simp [hname], Language.append_mem_mul hu hv, rfl, by simp⟩

theorem between_bytes {p : UInt8 → Bool} :
    Between name (bytes p) i j ↔ j = i + 1 ∧ ∃ b, name[i]? = some b ∧ p b := by
  constructor
  · rintro ⟨before, word, after, rfl, ⟨b, rfl, hb⟩, rfl, rfl⟩
    exact ⟨by simp, b, by simp, hb⟩
  · rintro ⟨rfl, b, hb, hp⟩
    obtain ⟨hlt, rfl⟩ := List.getElem?_eq_some_iff.1 hb
    refine ⟨name.take i, [name[i]], name.drop (i + 1), ?_, ⟨_, rfl, hp⟩, ?_, ?_⟩
    · simp
    · simp
      omega
    · simp
      omega

theorem between_all : Between name L 0 name.length ↔ name ∈ L := by
  constructor
  · rintro ⟨before, word, after, hname, hword, hi, hj⟩
    obtain rfl := List.eq_nil_of_length_eq_zero hi.symm
    rw [hname, List.nil_append, List.length_append, Nat.add_eq_left] at hj
    obtain rfl := List.eq_nil_of_length_eq_zero hj
    rwa [hname, List.nil_append, List.append_nil]
  · exact fun h => ⟨[], name, [], by simp, h, rfl, by simp⟩

/-! ### Reached places -/

/-- The places `s` are those that are reached from the places `r` by the words of a language. -/
structure Carries (name : List UInt8) (L : Language UInt8) (r s : Reached) : Prop where
  length : s.length = name.length + 1
  reached : ∀ j, s[j]? = some true ↔ ∃ i, r[i]? = some true ∧ Between name L i j

theorem lt_length_of_reached (h : r[i]? = some true) : i < r.length :=
  (List.getElem?_eq_some_iff.1 h).1

namespace Carries

theorem refl (hr : r.length = name.length + 1) : Carries name 1 r r := by
  refine ⟨hr, fun j => ?_⟩
  simp only [between_one]
  constructor
  · intro h
    have := lt_length_of_reached h
    exact ⟨j, h, rfl, by omega⟩
  · rintro ⟨i, h, rfl, -⟩
    exact h

theorem mul (h : Carries name L r s) (h' : Carries name M s t) : Carries name (L * M) r t := by
  refine ⟨h'.length, fun j => ?_⟩
  simp only [h'.reached, h.reached, between_mul]
  constructor
  · rintro ⟨k, ⟨i, hi, hik⟩, hkj⟩
    exact ⟨i, hi, k, hik, hkj⟩
  · rintro ⟨i, hi, k, hik, hkj⟩
    exact ⟨k, ⟨i, hi, hik⟩, hkj⟩

theorem add (h : Carries name L r s) (h' : Carries name M r t) :
    Carries name (L + M) r (s.either t) := by
  refine ⟨by rw [Reached.either, List.length_zipWith, h.length, h'.length, Nat.min_self], ?_⟩
  intro j
  have heither : (s.either t)[j]? = some true ↔ s[j]? = some true ∨ t[j]? = some true := by
    rw [Reached.either, List.getElem?_zipWith]
    rcases lt_or_ge j (name.length + 1) with hlt | hge
    · rw [List.getElem?_eq_getElem (h.length ▸ hlt), List.getElem?_eq_getElem (h'.length ▸ hlt)]
      simp
    · rw [List.getElem?_eq_none (h.length ▸ hge), List.getElem?_eq_none (h'.length ▸ hge)]
      simp
  simp only [heither, h.reached, h'.reached, between_add, and_or_left, exists_or]

theorem byte (p : UInt8 → Bool) (hr : r.length = name.length + 1) :
    Carries name (bytes p) r (r.byte name p) := by
  refine ⟨by simp [Reached.byte, hr], fun j => ?_⟩
  simp only [between_bytes]
  cases j with
  | zero => simp [Reached.byte]
  | succ j =>
    rw [Reached.byte, List.getElem?_cons_succ, List.getElem?_zipWith]
    constructor
    · intro h
      split at h
      · rename_i b here hb hhere
        simp only [Option.some.injEq, Bool.and_eq_true] at h
        exact ⟨j, h.1 ▸ hhere, rfl, b, hb, h.2⟩
      · simp at h
    · rintro ⟨i, hi, hij, b, hb, hp⟩
      obtain rfl := Nat.succ.inj hij
      simp [hi, hb, hp]

theorem getElem?_anyFrom {before : Bool} {j : ℕ} :
    (Reached.anyFrom before r)[j]? = some true ↔
      j < r.length ∧ (before ∨ ∃ i ≤ j, r[i]? = some true) := by
  induction r generalizing before j with
  | nil => simp [Reached.anyFrom]
  | cons here r ih =>
    cases j with
    | zero => simp [Reached.anyFrom]
    | succ j =>
      rw [Reached.anyFrom, List.getElem?_cons_succ, ih, List.length_cons, Nat.succ_lt_succ_iff]
      refine and_congr_right fun _ => ?_
      rw [Bool.or_eq_true, or_assoc]
      refine or_congr_right ?_
      constructor
      · rintro (hhere | ⟨i, hi, h⟩)
        · exact ⟨0, Nat.zero_le _, by simp [hhere]⟩
        · exact ⟨i + 1, by omega, by simpa using h⟩
      · rintro ⟨i, hi, h⟩
        cases i with
        | zero => exact .inl (by simpa using h)
        | succ i => exact .inr ⟨i, by omega, by simpa using h⟩

theorem length_anyFrom (before : Bool) (r : Reached) :
    (Reached.anyFrom before r).length = r.length := by
  induction r generalizing before with
  | nil => rfl
  | cons here r ih => rw [Reached.anyFrom, List.length_cons, ih, List.length_cons]

theorem any (hr : r.length = name.length + 1) : Carries name ⊤ r r.any := by
  refine ⟨by rw [Reached.any, length_anyFrom, hr], fun j => ?_⟩
  rw [Reached.any, getElem?_anyFrom, hr]
  simp only [between_top]
  constructor
  · rintro ⟨hj, h | ⟨i, hij, hi⟩⟩
    · simp at h
    · exact ⟨i, hi, hij, by omega⟩
  · rintro ⟨i, hi, hij, hj⟩
    exact ⟨by omega, .inr ⟨i, hij, hi⟩⟩

theorem slashAfter (h : Carries name L r s) : Carries name (L * slashes) r (s.slash name) :=
  h.mul (byte _ h.length)

/-- A word is followed byte by byte. -/
theorem word (w : List UInt8) (hr : r.length = name.length + 1) :
    Carries name {w} r (w.foldl (fun r b => r.byte name (· == b)) r) := by
  induction w generalizing r with
  | nil => exact refl hr
  | cons b w ih =>
    have hbyte : Carries name (bytes (· == b)) r (r.byte name (· == b)) := byte _ hr
    have hcons : ({b :: w} : Language UInt8) = bytes (· == b) * {w} := by
      ext v
      constructor
      · rintro rfl
        have hb : [b] ∈ bytes (· == b) := ⟨b, rfl, by simp⟩
        exact Language.append_mem_mul hb rfl
      · intro hv
        obtain ⟨_, ⟨c, rfl, hc⟩, _, rfl, rfl⟩ := Language.mem_mul.1 hv
        obtain rfl := eq_of_beq hc
        rfl
    rw [hcons]
    exact hbyte.mul (ih hbyte.length)

end Carries

/-! ### The matcher -/

theorem anyLanguage_of_not_live {branches : List (List Token)} (h : anyLive branches = false) :
    anyLanguage branches = 0 := by
  ext w
  rw [← Bool.not_eq_true, anyLive_iff, not_exists] at h
  simpa [mem_anyLanguage] using fun branch hbranch hlive => absurd ⟨hbranch, hlive⟩ (h branch)

mutual

theorem carries_token (t : Token) {r : Reached} (hr : r.length = name.length + 1) :
    Carries name t.language r (t.advance name r) := by
  cases t with
  | literal c => exact .word _ hr
  | anyByte => exact .byte _ hr
  | anyBytes => exact .any hr
  | dirsBefore => exact .add (.refl hr) (.slashAfter (.any hr))
  | dirsAfter =>
    have hslash : Carries name slashes r (r.slash name) := .byte _ hr
    exact hslash.mul (.any hslash.length)
  | dirsBetween =>
    have hslash : Carries name slashes r (r.slash name) := .byte _ hr
    exact hslash.add (.slashAfter (hslash.mul (.any hslash.length)))
  | oneOf negated ranges => exact .byte _ hr
  | alternates branches =>
    have h := carries_advanceAny branches hr
    rw [Token.language, Token.advance]
    cases hadvance : advanceAny name branches r with
    | none =>
      simp only [hadvance] at h
      rw [h, if_neg Bool.false_ne_true]
      exact .refl hr
    | some s =>
      simp only [hadvance] at h
      rw [h.1, if_pos rfl]
      exact h.2

/-- A pattern reaches places by the words of its language. -/
theorem carries_advance (ts : List Token) {r : Reached} (hr : r.length = name.length + 1) :
    Carries name (language ts) r (advance name ts r) := by
  cases ts with
  | nil => exact .refl hr
  | cons t ts =>
    have h := carries_token t hr
    exact h.mul (carries_advance ts h.length)

theorem carries_advanceAny (branches : List (List Token)) {r : Reached}
    (hr : r.length = name.length + 1) :
    match advanceAny name branches r with
    | none => anyLive branches = false
    | some s => anyLive branches = true ∧ Carries name (anyLanguage branches) r s := by
  cases branches with
  | nil => rfl
  | cons branch branches =>
    have h := carries_advance branch hr
    have hrest := carries_advanceAny branches hr
    rw [advanceAny, anyLive, anyLanguage]
    cases hlive : isLive branch <;> cases hadvance : advanceAny name branches r <;>
      simp only [hadvance] at hrest
    · simpa using hrest
    · simpa using hrest
    · rw [anyLanguage_of_not_live hrest]
      simpa using h
    · exact ⟨rfl, h.add hrest.2⟩

end

/-- A pattern matches the names of its language, unless it stands for directories in front of
nothing and matches every name. -/
theorem matchesName_iff {pattern : Pattern} (h : pattern ≠ [.dirsBefore]) (name : List UInt8) :
    matchesName pattern name = true ↔ name ∈ language pattern := by
  have hstart : (Reached.start name.length).length = name.length + 1 := by simp [Reached.start]
  have hcarries := carries_advance pattern hstart
  have hfirst : ∀ i, (Reached.start name.length)[i]? = some true ↔ i = 0 := by
    intro i
    cases i with
    | zero => simp [Reached.start]
    | succ i => simp [Reached.start, List.getElem?_replicate]
  have hend : (advance name pattern (.start name.length)).atEnd = true ↔
      (advance name pattern (.start name.length))[name.length]? = some true := by
    rw [Reached.atEnd, List.getLast?_eq_getElem?, hcarries.length, Nat.add_sub_cancel]
    cases (advance name pattern (.start name.length))[name.length]? <;> simp
  have hmatches : matchesName pattern name = (advance name pattern (.start name.length)).atEnd := by
    rw [matchesName]
    exact h
  rw [hmatches, hend, hcarries.reached]
  simp only [hfirst, exists_eq_left, between_all]

end Touchstone.Glob
