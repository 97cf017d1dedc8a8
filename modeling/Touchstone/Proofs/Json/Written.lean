import Touchstone.Proofs.Json.Grammar

/-!
# Written documents

A document is written as the grammar allows, and says what it consists of.

## Main definitions

* `Touchstone.Json.value` : what a document says.
* `Touchstone.Json.Spells` : a text denotes something, whatever follows it.

## Main results

* `Touchstone.Json.document_pretty` : a written document says what it consists of.
-/

namespace Touchstone.Json

open Number (ofDigits)

mutual

/-- What a document says. -/
def value : Json → Value
  | .bool b => .bool b
  | .number n => .number n
  | .string s => .string s
  | .array items => .array (values items)
  | .object fields => .object (fieldValues fields)

/-- What documents say. -/
def values : List Json → List Value
  | [] => []
  | item :: items => value item :: values items

/-- What a document with a key says. -/
def fieldValue : String × Json → String × Value
  | (key, item) => (key, value item)

/-- What documents with keys say. -/
def fieldValues : List (String × Json) → List (String × Value)
  | [] => []
  | field :: fields => fieldValue field :: fieldValues fields

end

theorem values_eq_map (items : List Json) : values items = items.map value := by
  induction items with
  | nil => rfl
  | cons item items ih => rw [values, ih, List.map_cons]

/-! ### Numbers and strings -/

theorem isDigits_toDigits (n : ℕ) : IsDigits (Nat.toDigits 10 n) :=
  ⟨Nat.toDigits_ne_nil, fun _ => Nat.isDigit_of_mem_toDigits (by decide) (by decide)⟩

theorem ofDigits_toDigits (n : ℕ) : ofDigits (Nat.toDigits 10 n) = n := by
  have h := Nat.ofDigitChars_ten_toDigits (n := n)
  rwa [Nat.ofDigitChars_eq_foldl] at h

/-- Only zero is written with a zero in front. -/
theorem toDigits_zero_head {n : ℕ} (h : (Nat.toDigits 10 n).head? = some '0') :
    Nat.toDigits 10 n = ['0'] := by
  induction n using Nat.strong_induction_on with
  | _ n ih =>
    by_cases hn : n < 10
    · rw [Nat.toDigits_of_lt_base hn] at h ⊢
      rw [Option.some.inj h]
    · -- The digits of a longer number begin with those of its tenth, which is not zero.
      have hsplit := Nat.toDigits_of_base_le (show 1 < 10 by decide) (Nat.not_lt.1 hn)
      rw [hsplit, List.head?_append_of_ne_nil _ Nat.toDigits_ne_nil] at h
      have hzero := congrArg ofDigits (ih (n / 10) (by omega) h)
      rw [ofDigits_toDigits] at hzero
      have : n / 10 = 0 := hzero
      omega

theorem numeral_toString (n : ℕ) : Numeral (toString n).toList n := by
  have hm := Magnitude.mk (isDigits_toDigits n) toDigits_zero_head .absent .absent
  simp only [List.append_nil, ofDigits_toDigits] at hm
  have hn := Numeral.positive hm
  simpa [toString] using hn

theorem hexValue?_hexDigit (n : ℕ) : hexValue? (hexDigit n) = some (n % 16) := by
  have h : ∀ d < 16, hexValue? (Nat.digitChar d) = some d := by decide
  exact h _ (Nat.mod_lt _ (by decide))

theorem unit?_control {n : ℕ} (h : n < 0x20) :
    unit? '0' '0' (hexDigit (n / 16)) (hexDigit n) = some n := by
  have hzero : hexValue? '0' = some 0 := rfl
  have hn : n / 16 % 16 * 16 + n % 16 = n := by omega
  simp [unit?, hzero, hexValue?_hexDigit, hn]

theorem charText_escaped (c : Char) : CharText (escaped c) c := by
  unfold escaped
  split
  iterate 7 exact .letter (by decide)
  next hquote hbackslash _ _ _ _ _ =>
    split
    next hcontrol =>
      have hc := CharText.unit (unit?_control hcontrol) c.valid
      rwa [Char.ofNat_toNat] at hc
    next hplain => exact .plain (Nat.not_lt.1 hplain) hquote hbackslash

theorem stringText_escaped (s : List Char) : StringText (s.flatMap escaped) s := by
  induction s with
  | nil => exact .nil
  | cons c s ih => exact .cons (charText_escaped c) ih

/-! ### Tokens in front of a text -/

section Lexed

variable {rest : List Char} {us : List Token}

theorem Lexed.newLine (h : Lexed rest us) (level : ℕ) : Lexed (newLine level ++ rest) us := by
  rw [Json.newLine, List.cons_append]
  refine .blank (by simp [blanks]) ?_
  induction 2 * level with
  | zero => exact h
  | succ n ih => exact .blank (by simp [blanks]) ih

theorem Lexed.mark {c : Char} (h : Lexed rest us) (hc : c ∈ marks) :
    Lexed (c :: rest) (.mark c :: us) :=
  .token (.mark hc) h

theorem Lexed.quoted (h : Lexed rest us) (s : String) :
    Lexed (quoted s ++ rest) (.string s :: us) := by
  have hb : Begins ('"' :: (s.toList.flatMap escaped ++ '"' :: rest))
      (.string (String.ofList s.toList)) rest := .string (stringText_escaped s.toList)
  rw [String.ofList_toList] at hb
  have hl := Lexed.token hb h
  simpa [Json.quoted] using hl

theorem Lexed.key (h : Lexed rest us) (s : String) :
    Lexed (Json.quoted s ++ [':', ' '] ++ rest) (.string s :: .mark ':' :: us) := by
  have hcolon : Lexed (':' :: ' ' :: rest) (.mark ':' :: us) :=
    (Lexed.blank (by simp [blanks]) h).mark (by simp [marks])
  have hl := hcolon.quoted s
  simpa using hl

end Lexed

/-! ### Spelling -/

/-- A text does not begin with a numeric character, so no numeral goes on into it. -/
def Ends (rest : List Char) : Prop := ∀ c ∈ rest.head?, ¬isNumeric c

theorem ends_cons {c : Char} (hc : c ∈ marks ++ blanks) (rest : List Char) : Ends (c :: rest) := by
  have hother : ∀ d ∈ marks ++ blanks, ¬isNumeric d := by simp [marks, blanks, isNumeric]
  rintro _ ⟨⟩
  exact hother c hc

theorem ends_newLine (level : ℕ) (rest : List Char) : Ends (newLine level ++ rest) :=
  ends_cons (by simp [blanks]) _

/-- A text denotes something, whatever follows it, as long as no numeral goes on. -/
def Spells (text : List Char) (form : Form) : Prop :=
  ∃ ts, Denotes ts form ∧
    ∀ rest us, Ends rest → Lexed rest us → Lexed (text ++ rest) (ts ++ us)

theorem spells_bool (level : ℕ) (b : Bool) :
    Spells (written level (.bool b)) (.value (.bool b)) := by
  refine ⟨[.scalar (.bool b)], .scalar _, fun rest us _ h => .token (.word ?_) h⟩
  cases b <;> simp [words, written]

theorem spells_number (n : ℕ) : Spells (toString n).toList (.value (.number n)) :=
  ⟨[.scalar (.number n)], .scalar _,
    fun _ _ hrest h => .token (.numeral (numeral_toString n) hrest) h⟩

theorem spells_string (s : String) : Spells (quoted s) (.value (.string s)) :=
  ⟨[.string s], .string s, fun _ _ _ h => h.quoted s⟩

theorem spells_emptyArray : Spells ['[', ']'] (.value (.array [])) :=
  ⟨_, .emptyArray, fun _ _ _ h => (h.mark (by simp [marks])).mark (by simp [marks])⟩

theorem spells_emptyObject : Spells ['{', '}'] (.value (.object [])) :=
  ⟨_, .emptyObject, fun _ _ _ h => (h.mark (by simp [marks])).mark (by simp [marks])⟩

namespace Spells

variable {text text' : List Char} {v : Value} {vs : List Value} {fs : List (String × Value)}

/-- Brackets on lines of their own. -/
theorem bracketed {form form' : Form} {left right : Char} (h : Spells text form)
    (hleft : left ∈ marks) (hright : right ∈ marks)
    (hform : ∀ ts, Denotes ts form → Denotes (.mark left :: ts ++ [.mark right]) form')
    (level level' : ℕ) :
    Spells (left :: newLine level ++ text ++ newLine level' ++ [right]) form' := by
  obtain ⟨ts, hts, htext⟩ := h
  refine ⟨_, hform ts hts, fun rest us _ hus => ?_⟩
  have hinner := htext _ _ (ends_newLine level' _) ((hus.mark hright).newLine level')
  have houter := (hinner.newLine level).mark hleft
  simpa using houter

theorem lastItem (h : Spells text (.value v)) : Spells text (.items [v]) := by
  obtain ⟨ts, hts, htext⟩ := h
  exact ⟨ts, .lastItem hts, htext⟩

theorem item (h : Spells text (.value v)) (hs : Spells text' (.items vs)) (level : ℕ) :
    Spells (text ++ ',' :: newLine level ++ text') (.items (v :: vs)) := by
  obtain ⟨ts, hts, htext⟩ := h
  obtain ⟨ts', hts', htext'⟩ := hs
  refine ⟨_, .item hts hts', fun rest us hrest hus => ?_⟩
  have hitems := (htext' rest us hrest hus).newLine level
  have hcomma := hitems.mark (show ',' ∈ marks by simp [marks])
  have hitem := htext _ _ (ends_cons (by simp [marks]) _) hcomma
  simpa using hitem

theorem lastField (h : Spells text (.value v)) (key : String) :
    Spells (quoted key ++ [':', ' '] ++ text) (.fields [(key, v)]) := by
  obtain ⟨ts, hts, htext⟩ := h
  refine ⟨_, .lastField key hts, fun rest us hrest hus => ?_⟩
  have hfield := (htext rest us hrest hus).key key
  simpa using hfield

theorem field (h : Spells text (.value v)) (key : String) (hs : Spells text' (.fields fs))
    (level : ℕ) :
    Spells (quoted key ++ [':', ' '] ++ text ++ ',' :: newLine level ++ text')
      (.fields ((key, v) :: fs)) := by
  obtain ⟨ts, hts, htext⟩ := h
  obtain ⟨ts', hts', htext'⟩ := hs
  refine ⟨_, .field key hts hts', fun rest us hrest hus => ?_⟩
  have hfields := (htext' rest us hrest hus).newLine level
  have hcomma := hfields.mark (show ',' ∈ marks by simp [marks])
  have hfield := (htext _ _ (ends_cons (by simp [marks]) _) hcomma).key key
  simpa using hfield

end Spells

/-! ### Documents -/

mutual

/-- A document is spelled at every level. -/
theorem spells_written (level : ℕ) : (j : Json) → Spells (written level j) (.value j.value)
  | .bool b => spells_bool level b
  | .number n => spells_number n
  | .string s => spells_string s
  | .array [] => spells_emptyArray
  | .array (item :: items) => by
    have hitems := spells_items (level + 1) items (spells_written (level + 1) item)
    have harray := hitems.bracketed (show '[' ∈ marks by simp [marks])
      (show ']' ∈ marks by simp [marks]) (fun _ => .array) (level + 1) level
    simpa [written, value, values] using harray
  | .object [] => spells_emptyObject
  | .object ((key, item) :: fields) => by
    have hfields := spells_fields (level + 1) fields key (spells_written (level + 1) item)
    have hobject := hfields.bracketed (show '{' ∈ marks by simp [marks])
      (show '}' ∈ marks by simp [marks]) (fun _ => .object) (level + 1) level
    simpa [written, writtenField, value, fieldValues, fieldValue] using hobject

/-- The items of an array are spelled behind the first one. -/
theorem spells_items (level : ℕ) : (items : List Json) → ∀ {text : List Char} {v : Value},
    Spells text (.value v) →
      Spells (text ++ writtenItems level items) (.items (v :: values items))
  | [], text, v, h => by simpa [writtenItems, values] using h.lastItem
  | item :: items, text, v, h => by
    have hitems := h.item (spells_items level items (spells_written level item)) level
    simpa [writtenItems, values] using hitems

/-- The fields of an object are spelled behind the first one. -/
theorem spells_fields (level : ℕ) : (fields : List (String × Json)) → ∀ (key : String)
    {text : List Char} {v : Value}, Spells text (.value v) →
      Spells (quoted key ++ [':', ' '] ++ text ++ writtenFields level fields)
        (.fields ((key, v) :: fieldValues fields))
  | [], key, text, v, h => by simpa [writtenFields, fieldValues] using h.lastField key
  | (key', item) :: fields, key, text, v, h => by
    have hfields := h.field key (spells_fields level fields key' (spells_written level item)) level
    simpa [writtenFields, writtenField, fieldValues, fieldValue] using hfields

end

/-- A written document says what it consists of. -/
theorem document_pretty (j : Json) : Document j.pretty.toList j.value := by
  obtain ⟨ts, hts, htext⟩ := spells_written 0 j
  have hlexed := htext [] [] (by simp [Ends]) .nil
  rw [List.append_nil, List.append_nil] at hlexed
  rw [pretty, String.toList_ofList]
  exact ⟨ts, hlexed, hts⟩

end Touchstone.Json
