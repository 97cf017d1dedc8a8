import Mathlib
import Touchstone.Text.Blank

/-!
# The core of a text

The core of a text is what is left of it between the blank characters at its ends.  A text has one
core only, and trimming finds it, so that blank characters put around a text change nothing.

## Main definitions

* `Touchstone.Text.Blank` : a text of blank characters.
* `Touchstone.Text.IsCore` : the core of a text.

## Main results

* `Touchstone.Text.trim_eq_iff` : the trimmed text is the core of the text.
* `Touchstone.Text.trim_pad` : blank characters at the ends of a text do not count.
-/

namespace Touchstone.Text

/-- A text of blank characters. -/
def Blank (text : List Char) : Prop := ∀ c ∈ text, isBlank c = true

instance : DecidablePred Blank := fun text =>
  decidable_of_iff (text.all isBlank = true) List.all_eq_true

/-- The core of a text stands between blank characters, and it neither begins nor ends with one. -/
structure IsCore (text core : List Char) : Prop where
  between : ∃ pre post, Blank pre ∧ Blank post ∧ text = pre ++ core ++ post
  first : ∀ c, core.head? = some c → isBlank c = false
  last : ∀ c, core.getLast? = some c → isBlank c = false

variable {text core p q : List Char}

theorem Blank.append (hp : Blank p) (hq : Blank q) : Blank (p ++ q) :=
  List.forall_mem_append.2 ⟨hp, hq⟩

/-! ### Trimming finds a core -/

theorem blank_takeWhile (text : List Char) : Blank (text.takeWhile isBlank) := fun _ hc =>
  List.mem_takeWhile_imp hc

theorem isBlank_of_head?_dropWhile {c : Char} (h : (text.dropWhile isBlank).head? = some c) :
    isBlank c = false := by
  have hnot := List.head?_dropWhile_not isBlank text
  rw [h] at hnot
  simpa using hnot

/-- The blank characters at the end are cut off. -/
theorem exists_trimEnd (text : List Char) : ∃ post, Blank post ∧ text = trimEnd text ++ post := by
  refine ⟨(text.reverse.takeWhile isBlank).reverse, ?_, ?_⟩
  · exact fun c hc => blank_takeWhile _ c (List.mem_reverse.1 hc)
  · rw [trimEnd, ← List.reverse_append, List.takeWhile_append_dropWhile, List.reverse_reverse]

theorem isBlank_of_getLast?_trimEnd {c : Char} (h : (trimEnd text).getLast? = some c) :
    isBlank c = false := by
  rw [trimEnd, List.getLast?_reverse] at h
  exact isBlank_of_head?_dropWhile h

/-- The trimmed text is a core. -/
theorem isCore_trim (text : List Char) : IsCore text (trim text) := by
  obtain ⟨post, hpost, heq⟩ := exists_trimEnd (trimStart text)
  refine ⟨⟨text.takeWhile isBlank, post, blank_takeWhile text, hpost, ?_⟩, fun c hc => ?_,
    fun c hc => isBlank_of_getLast?_trimEnd hc⟩
  · rw [List.append_assoc, trim, ← heq, trimStart, List.takeWhile_append_dropWhile]
  · have hhead : (trimStart text).head? = some c := by
      rw [heq, List.head?_append, trim] at *
      simp [hc]
    exact isBlank_of_head?_dropWhile hhead

/-! ### A text has one core -/

theorem trimStart_append_of_blank (hp : Blank p) (text : List Char) :
    trimStart (p ++ text) = trimStart text :=
  List.dropWhile_append_of_pos hp

theorem trimEnd_append_of_blank (hq : Blank q) (text : List Char) :
    trimEnd (text ++ q) = trimEnd text := by
  rw [trimEnd, List.reverse_append, trimEnd,
    List.dropWhile_append_of_pos fun c hc => hq c (List.mem_reverse.1 hc)]

theorem trimStart_of_head? (h : ∀ c, text.head? = some c → isBlank c = false) :
    trimStart text = text := by
  cases text with
  | nil => rfl
  | cons c text => rw [trimStart, List.dropWhile_cons_of_neg (by simp [h c rfl])]

theorem trimEnd_of_getLast? (h : ∀ c, text.getLast? = some c → isBlank c = false) :
    trimEnd text = text := by
  have hrev : trimStart text.reverse = text.reverse :=
    trimStart_of_head? fun c hc => h c (by simpa using hc)
  rw [trimEnd, ← trimStart, hrev, List.reverse_reverse]

/-- A core is the trimmed text. -/
theorem IsCore.trim_eq (h : IsCore text core) : trim text = core := by
  obtain ⟨pre, post, hpre, hpost, rfl⟩ := h.between
  rw [trim, List.append_assoc, trimStart_append_of_blank hpre]
  by_cases none : core = []
  · subst none
    have hempty := trimStart_append_of_blank hpost []
    rw [List.append_nil] at hempty
    rw [List.nil_append, hempty]
    rfl
  · have hfirst : ∀ c, (core ++ post).head? = some c → isBlank c = false := fun c hc =>
      h.first c (by rwa [List.head?_append_of_ne_nil _ none] at hc)
    rw [trimStart_of_head? hfirst, trimEnd_append_of_blank hpost, trimEnd_of_getLast? h.last]

/-- The trimmed text is the core of the text. -/
theorem trim_eq_iff : trim text = core ↔ IsCore text core :=
  ⟨fun h => h ▸ isCore_trim text, IsCore.trim_eq⟩

/-- Blank characters at the ends of a text do not count. -/
theorem trim_pad (hp : Blank p) (hq : Blank q) (text : List Char) :
    trim (p ++ text ++ q) = trim text := by
  obtain ⟨⟨pre, post, hpre, hpost, heq⟩, first, last⟩ := isCore_trim text
  refine IsCore.trim_eq ⟨⟨p ++ pre, post ++ q, hp.append hpre, hpost.append hq, ?_⟩, first, last⟩
  simpa only [List.append_assoc] using congrArg (fun t => p ++ t ++ q) heq

/-- The inner blank characters are part of the core. -/
example : trim " \t1  2\u00A0\n".toList = "1  2".toList := by decide

end Touchstone.Text
