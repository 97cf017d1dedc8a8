import Touchstone.Proofs.Json.Numeral

/-!
# Reading tokens

Each reader takes what it reads off the front of a text and returns what comes after it.  It reads
exactly what the grammar allows, so the tokens of a text are found whenever it has some.

## Main definitions

* `Touchstone.Json.takeChars?` : read a string up to its closing quote.
* `Touchstone.Json.takeToken?` : read a token.
* `Touchstone.Json.tokens?` : the tokens of a text.

## Main results

* `Touchstone.Json.takeChars?_eq_some_iff`, `Touchstone.Json.tokens?_eq_some_iff` : strings and
  tokens are read as the grammar says.
-/

namespace Touchstone.Json

/-! ### Strings -/

/-- Read four hexadecimal digits in front of a text. -/
def takeUnit? : List Char → Option (ℕ × List Char)
  | a :: b :: c :: d :: text => (unit? a b c d).map (·, text)
  | _ => none

/-- Read the second half of a surrogate pair in front of a text. -/
def takeLow? : List Char → Option (ℕ × List Char)
  | b :: u :: text =>
    if b = '\\' ∧ u = 'u' then (takeUnit? text).filter fun n => 0xDC00 ≤ n.1 ∧ n.1 < 0xE000
    else none
  | _ => none

/-- Read what stands behind a backslash in front of a text. -/
def takeEscaped? : List Char → Option (Char × List Char)
  | [] => none
  | e :: text =>
    if e = 'u' then do
      let (m, text) ← takeUnit? text
      if 0xD800 ≤ m ∧ m < 0xDC00 then
        (takeLow? text).map fun n => (paired m n.1, n.2)
      else if m.isValidChar then some (Char.ofNat m, text)
      else none
    else (letters.lookup e).map (·, text)

/-- Read a character of a string in front of a text. -/
def takeChar? : List Char → Option (Char × List Char)
  | [] => none
  | c :: text =>
    if c = '\\' then takeEscaped? text
    else if c = '"' ∨ c.toNat < 0x20 then none
    else some (c, text)

theorem takeUnit?_eq_some_iff {text rest : List Char} {n : ℕ} :
    takeUnit? text = some (n, rest) ↔
      ∃ a b c d, text = a :: b :: c :: d :: rest ∧ unit? a b c d = some n := by
  constructor
  · intro h
    unfold takeUnit? at h
    split at h
    next a b c d text =>
      obtain ⟨m, hm, heq⟩ := Option.map_eq_some_iff.1 h
      cases heq
      exact ⟨a, b, c, d, rfl, hm⟩
    next => cases h
  · rintro ⟨a, b, c, d, rfl, h⟩
    rw [takeUnit?, h, Option.map_some]

theorem takeLow?_eq_some_iff {text rest : List Char} {n : ℕ} :
    takeLow? text = some (n, rest) ↔
      ∃ a b c d, text = '\\' :: 'u' :: a :: b :: c :: d :: rest ∧ unit? a b c d = some n ∧
        0xDC00 ≤ n ∧ n < 0xE000 := by
  constructor
  · intro h
    unfold takeLow? at h
    split at h
    next b u text =>
      split at h
      next hbu =>
        obtain ⟨rfl, rfl⟩ := hbu
        obtain ⟨hunit, hlow⟩ := Option.filter_eq_some_iff.1 h
        obtain ⟨a, b, c, d, rfl, hn⟩ := takeUnit?_eq_some_iff.1 hunit
        exact ⟨a, b, c, d, rfl, hn, by simpa using hlow⟩
      next => cases h
    next => cases h
  · rintro ⟨a, b, c, d, rfl, h, hlow⟩
    rw [takeLow?, if_pos ⟨rfl, rfl⟩, Option.filter_eq_some_iff, takeUnit?_eq_some_iff]
    exact ⟨⟨a, b, c, d, rfl, h⟩, by simpa using hlow⟩

theorem charText_of_takeEscaped? {text rest : List Char} {c : Char}
    (h : takeEscaped? text = some (c, rest)) :
    ∃ front, text = front ++ rest ∧ CharText ('\\' :: front) c := by
  cases text with
  | nil => cases h
  | cons e text =>
    rw [takeEscaped?] at h
    by_cases hu : e = 'u'
    · subst hu
      simp only [↓reduceIte, Option.bind_eq_bind, Option.bind_eq_some_iff, Prod.exists] at h
      obtain ⟨m, text', hunit, h⟩ := h
      obtain ⟨a, b, c, d, rfl, hm⟩ := takeUnit?_eq_some_iff.1 hunit
      by_cases hhigh : 0xD800 ≤ m ∧ m < 0xDC00
      · rw [if_pos hhigh] at h
        obtain ⟨⟨n, text''⟩, hlow, heq⟩ := Option.map_eq_some_iff.1 h
        obtain ⟨a', b', c', d', rfl, hn, hn'⟩ := takeLow?_eq_some_iff.1 hlow
        obtain ⟨rfl, rfl⟩ := Prod.mk.inj heq
        exact ⟨['u', a, b, c, d, '\\', 'u', a', b', c', d'], rfl, .pair hm hn hhigh hn'⟩
      · rw [if_neg hhigh] at h
        obtain ⟨hvalid, heq⟩ := Option.ite_none_right_eq_some.1 h
        obtain ⟨rfl, rfl⟩ := Prod.mk.inj (Option.some.inj heq)
        exact ⟨['u', a, b, c, d], rfl, .unit hm hvalid⟩
    · rw [if_neg hu] at h
      obtain ⟨c', hlookup, heq⟩ := Option.map_eq_some_iff.1 h
      cases heq
      obtain ⟨before, after, hletters, -⟩ := List.lookup_eq_some_iff.1 hlookup
      exact ⟨[e], rfl, .letter (by rw [hletters]; simp)⟩

theorem takeUnit?_append {a b c d : Char} {n : ℕ} (h : unit? a b c d = some n)
    (rest : List Char) : takeUnit? (a :: b :: c :: d :: rest) = some (n, rest) :=
  takeUnit?_eq_some_iff.2 ⟨a, b, c, d, rfl, h⟩

theorem letters_lookup : ∀ l ∈ letters, l.1 ≠ 'u' ∧ letters.lookup l.1 = some l.2 := by
  decide

theorem takeEscaped?_letter {e c : Char} (h : (e, c) ∈ letters) (rest : List Char) :
    takeEscaped? (e :: rest) = some (c, rest) := by
  obtain ⟨hu, hlookup⟩ := letters_lookup _ h
  rw [takeEscaped?, if_neg hu, hlookup, Option.map_some]

theorem takeEscaped?_unit {a b c d : Char} {n : ℕ} (h : unit? a b c d = some n)
    (valid : n.isValidChar) (rest : List Char) :
    takeEscaped? ('u' :: a :: b :: c :: d :: rest) = some (Char.ofNat n, rest) := by
  have hhigh : ¬(0xD800 ≤ n ∧ n < 0xDC00) := by
    rcases valid with hv | hv <;> omega
  rw [takeEscaped?, if_pos rfl, takeUnit?_append h]
  exact (if_neg hhigh).trans (if_pos valid)

theorem takeEscaped?_pair {a b c d a' b' c' d' : Char} {m n : ℕ} (h : unit? a b c d = some m)
    (h' : unit? a' b' c' d' = some n) (high : 0xD800 ≤ m ∧ m < 0xDC00)
    (low : 0xDC00 ≤ n ∧ n < 0xE000) (rest : List Char) :
    takeEscaped? ('u' :: a :: b :: c :: d :: '\\' :: 'u' :: a' :: b' :: c' :: d' :: rest) =
      some (paired m n, rest) := by
  have hlow : takeLow? ('\\' :: 'u' :: a' :: b' :: c' :: d' :: rest) = some (n, rest) :=
    takeLow?_eq_some_iff.2 ⟨a', b', c', d', rfl, h', low⟩
  rw [takeEscaped?, if_pos rfl, takeUnit?_append h]
  refine (if_pos high).trans ?_
  rw [hlow, Option.map_some]

theorem takeChar?_escaped (text : List Char) : takeChar? ('\\' :: text) = takeEscaped? text := by
  rw [takeChar?, if_pos rfl]

/-- The characters of strings are read as the grammar says. -/
theorem takeChar?_eq_some_iff {text rest : List Char} {c : Char} :
    takeChar? text = some (c, rest) ↔ ∃ front, text = front ++ rest ∧ CharText front c := by
  constructor
  · intro h
    cases text with
    | nil => cases h
    | cons d text =>
      rw [takeChar?] at h
      by_cases hbackslash : d = '\\'
      · rw [if_pos hbackslash] at h
        obtain ⟨front, rfl, hfront⟩ := charText_of_takeEscaped? h
        exact ⟨d :: front, rfl, by rwa [hbackslash]⟩
      · rw [if_neg hbackslash] at h
        obtain ⟨hplain, heq⟩ := Option.ite_none_left_eq_some.1 h
        obtain ⟨hquote, hcontrol⟩ := not_or.1 hplain
        cases heq
        exact ⟨[c], rfl, .plain (Nat.not_lt.1 hcontrol) hquote hbackslash⟩
  · rintro ⟨_, rfl, hc⟩
    cases hc with
    | plain control quote backslash =>
      exact (if_neg backslash).trans (if_neg (not_or.2 ⟨quote, Nat.not_lt.2 control⟩))
    | letter h => exact (takeChar?_escaped _).trans (takeEscaped?_letter h rest)
    | unit h valid => exact (takeChar?_escaped _).trans (takeEscaped?_unit h valid rest)
    | pair h h' high low => exact (takeChar?_escaped _).trans (takeEscaped?_pair h h' high low rest)

theorem CharText.exists_cons {front : List Char} {c : Char} (h : CharText front c) :
    ∃ d text, front = d :: text ∧ d ≠ '"' := by
  cases h with
  | plain control quote backslash => exact ⟨_, _, rfl, quote⟩
  | letter | unit | pair => exact ⟨_, _, rfl, by decide⟩

theorem takeChar?_length_lt {text rest : List Char} {c : Char}
    (h : takeChar? text = some (c, rest)) : rest.length < text.length := by
  obtain ⟨front, rfl, hc⟩ := takeChar?_eq_some_iff.1 h
  obtain ⟨d, front, rfl, -⟩ := hc.exists_cons
  simp only [List.cons_append, List.length_cons, List.length_append]
  omega

/-- Read the characters of a string up to its closing quote. -/
def takeChars? (text : List Char) : Option (List Char × List Char) :=
  if text.head? = some '"' then some ([], text.tail)
  else
    match _h : takeChar? text with
    | none => none
    | some (c, rest) => (takeChars? rest).map fun s => (c :: s.1, s.2)
termination_by text.length
decreasing_by exact takeChar?_length_lt ‹_›

theorem takeChars?_of_takeChar? {text rest : List Char} {c : Char}
    (hquote : text.head? ≠ some '"') (h : takeChar? text = some (c, rest)) :
    takeChars? text = (takeChars? rest).map fun s => (c :: s.1, s.2) := by
  rw [takeChars?, if_neg hquote]
  split
  next hnone => exact absurd (h.symm.trans hnone) (Option.some_ne_none _)
  next hsome =>
    cases h.symm.trans hsome
    rfl

/-- Strings are read as the grammar says. -/
theorem takeChars?_eq_some_iff {text rest s : List Char} :
    takeChars? text = some (s, rest) ↔
      ∃ inner, text = inner ++ '"' :: rest ∧ StringText inner s := by
  constructor
  · intro h
    fun_induction takeChars? text generalizing s with
    | case1 text hquote =>
      cases h
      exact ⟨[], (List.cons_head?_tail hquote).symm, .nil⟩
    | case2 => cases h
    | case3 text hquote c rest' hc ih =>
      obtain ⟨⟨s', rest⟩, hs, heq⟩ := Option.map_eq_some_iff.1 h
      cases heq
      obtain ⟨front, rfl, hfront⟩ := takeChar?_eq_some_iff.1 hc
      obtain ⟨inner, rfl, hinner⟩ := ih hs
      exact ⟨front ++ inner, (List.append_assoc ..).symm, .cons hfront hinner⟩
  · rintro ⟨inner, rfl, h⟩
    induction h with
    | nil => rw [takeChars?]; rfl
    | @cons front inner c s hc hs ih =>
      have hquote : (front ++ inner ++ '"' :: rest).head? ≠ some '"' := by
        obtain ⟨d, front, rfl, hd⟩ := hc.exists_cons
        simpa using hd
      have hchar : takeChar? (front ++ inner ++ '"' :: rest) = some (c, inner ++ '"' :: rest) :=
        takeChar?_eq_some_iff.2 ⟨front, List.append_assoc .., hc⟩
      rw [takeChars?_of_takeChar? hquote hchar, ih, Option.map_some]

/-! ### Tokens -/

/-- Read a token in front of a text. -/
def takeToken? : List Char → Option (Token × List Char)
  | [] => none
  | c :: text =>
    if c ∈ marks then some (.mark c, text)
    else if c = '"' then (takeChars? text).map fun s => (.string (String.ofList s.1), s.2)
    else
      match words.find? fun word => word.1.isPrefixOf (c :: text) with
      | some word => some (.scalar word.2, (c :: text).drop word.1.length)
      | none =>
        (numeral? ((c :: text).takeWhile isNumeric)).map fun q =>
          (.scalar (.number q), (c :: text).dropWhile isNumeric)

theorem begins_of_takeToken? {text rest : List Char} {t : Token}
    (h : takeToken? text = some (t, rest)) : Begins text t rest := by
  cases text with
  | nil => cases h
  | cons c text =>
    rw [takeToken?] at h
    by_cases hmark : c ∈ marks
    · rw [if_pos hmark] at h
      cases h
      exact .mark hmark
    rw [if_neg hmark] at h
    by_cases hquote : c = '"'
    · rw [if_pos hquote] at h
      obtain ⟨⟨s, rest⟩, hs, heq⟩ := Option.map_eq_some_iff.1 h
      obtain ⟨inner, rfl, hinner⟩ := takeChars?_eq_some_iff.1 hs
      cases heq
      subst hquote
      exact .string hinner
    rw [if_neg hquote] at h
    split at h
    next word hword =>
      cases h
      have hfound := List.find?_some hword
      obtain ⟨after, hafter⟩ := List.isPrefixOf_iff_prefix.1 hfound
      rw [← hafter, List.drop_left]
      exact .word (List.mem_of_find?_eq_some hword)
    next =>
      -- What is read is the longest run of numeric characters, so none of them follows it.
      obtain ⟨q, hq, heq⟩ := Option.map_eq_some_iff.1 h
      cases heq
      obtain ⟨htext, -, hend⟩ := run_iff.1 ⟨rfl, rfl⟩
      have hb := Begins.numeral (numeral?_eq_some_iff.1 hq) hend
      rwa [← htext] at hb

/-- No other token begins like a numeral. -/
theorem not_other_of_numeral {c : Char} (h : c = '-' ∨ c.isDigit) :
    c ∉ marks ∧ c ∉ blanks ∧ c ≠ '"' ∧ c ≠ 'n' ∧ c ≠ 't' ∧ c ≠ 'f' := by
  have hother : ∀ d ∈ marks ++ blanks ++ ['"', 'n', 't', 'f'], d ≠ '-' ∧ ¬d.isDigit := by
    simp [marks, blanks]
  have hc : c ∉ marks ++ blanks ++ ['"', 'n', 't', 'f'] := by
    intro hmem
    rcases h with h | h
    · exact (hother c hmem).1 h
    · exact (hother c hmem).2 h
  simpa [not_or, and_assoc] using hc

theorem Begins.takeToken? {text rest : List Char} {t : Token} (h : Begins text t rest) :
    takeToken? text = some (t, rest) := by
  cases h with
  | mark hc => rw [Json.takeToken?, if_pos hc]
  | @word word _ v hword =>
    have hwords : ∀ w ∈ words, Json.takeToken? (w.1 ++ rest) = some (.scalar w.2, rest) := by
      simp only [words, List.forall_mem_cons]
      refine ⟨rfl, rfl, rfl, ?_⟩
      simp
    exact hwords _ hword
  | @numeral numeral _ q hnumeral hend =>
    obtain ⟨c, after, rfl, hc⟩ := hnumeral.exists_cons
    obtain ⟨hmark, -, hquote, hn, ht, hf⟩ := not_other_of_numeral hc
    have hrun := run_iff.2 ⟨rfl, hnumeral.isNumeric, hend⟩
    have hnone : words.find? (fun word => word.1.isPrefixOf (c :: (after ++ rest))) = none := by
      simp [words, Ne.symm hn, Ne.symm ht, Ne.symm hf]
    rw [List.cons_append] at hrun ⊢
    rw [Json.takeToken?, if_neg hmark, if_neg hquote, hnone, hrun.1, hrun.2,
      numeral?_eq_some_iff.2 hnumeral, Option.map_some]
  | @string inner _ s hinner =>
    have hs : takeChars? (inner ++ '"' :: rest) = some (s, rest) :=
      takeChars?_eq_some_iff.2 ⟨inner, rfl, hinner⟩
    rw [Json.takeToken?, if_neg (by decide), if_pos rfl, hs, Option.map_some]

theorem Begins.exists_cons {text rest : List Char} {t : Token} (h : Begins text t rest) :
    ∃ c text', text = c :: text' ∧ c ∉ blanks ∧ rest.length ≤ text'.length := by
  cases h with
  | mark hc =>
    have hblank : ∀ c ∈ marks, c ∉ blanks := by simp [marks, blanks]
    exact ⟨_, _, rfl, hblank _ hc, Nat.le_refl _⟩
  | @word word _ v hword =>
    have hwords : ∀ w ∈ words, ∃ c text', w.1 ++ rest = c :: text' ∧ c ∉ blanks ∧
        rest.length ≤ text'.length := by
      simp only [words, List.forall_mem_cons]
      refine ⟨⟨'n', _, rfl, by decide, ?_⟩, ⟨'t', _, rfl, by decide, ?_⟩,
        ⟨'f', _, rfl, by decide, ?_⟩, by simp⟩
      all_goals
        simp
        omega
    exact hwords _ hword
  | numeral hnumeral =>
    obtain ⟨c, after, rfl, hc⟩ := hnumeral.exists_cons
    exact ⟨c, after ++ rest, rfl, (not_other_of_numeral hc).2.1, by simp⟩
  | string =>
    refine ⟨'"', _, rfl, by decide, ?_⟩
    simp only [List.length_append, List.length_cons]
    omega

theorem takeToken?_length_lt {text rest : List Char} {t : Token}
    (h : takeToken? text = some (t, rest)) : rest.length < text.length := by
  obtain ⟨c, text, rfl, -, hle⟩ := (begins_of_takeToken? h).exists_cons
  exact Nat.lt_succ_of_le hle

/-- The tokens of a text, if it has any. -/
def tokens? : List Char → Option (List Token)
  | [] => some []
  | c :: text =>
    if c ∈ blanks then tokens? text
    else
      match _h : takeToken? (c :: text) with
      | none => none
      | some (t, rest) => (tokens? rest).map (t :: ·)
termination_by text => text.length
decreasing_by
  · simp
  · exact takeToken?_length_lt ‹_›

/-- The tokens of a text are found as the grammar says. -/
theorem tokens?_eq_some_iff {text : List Char} {ts : List Token} :
    tokens? text = some ts ↔ Lexed text ts := by
  constructor
  · intro h
    fun_induction tokens? text generalizing ts with
    | case1 =>
      cases h
      exact .nil
    | case2 c text hc ih => exact .blank hc (ih h)
    | case3 => cases h
    | case4 c text hc t rest ht ih =>
      obtain ⟨ts, hts, rfl⟩ := Option.map_eq_some_iff.1 h
      exact .token (begins_of_takeToken? ht) (ih hts)
  · intro h
    induction h with
    | nil => rw [tokens?]
    | blank hc h ih => rw [tokens?, if_pos hc, ih]
    | token ht h ih =>
      obtain ⟨c, text, rfl, hc, -⟩ := ht.exists_cons
      have htoken := ht.takeToken?
      rw [tokens?, if_neg hc]
      split
      next hnone => exact absurd (htoken.symm.trans hnone) (Option.some_ne_none _)
      next hsome =>
        cases htoken.symm.trans hsome
        rw [ih, Option.map_some]

end Touchstone.Json
