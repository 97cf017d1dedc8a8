import Touchstone.Comparison
import Touchstone.Proofs.Diff.Reading
import Touchstone.Proofs.Text.Trim

/-!
# Comparing the cores of two texts

A comparison sees the cores of two texts and nothing else.  If they differ, the diff shows it: both
texts are completed with a line feed before their lines are compared, but a core ends with no line
feed of its own, so different cores stay different.

## Main results

* `Touchstone.Diff.exists_changed_line` : the diff of texts with different lines shows a change.
* `Touchstone.Text.eq_of_lines_complete` : different cores have different lines.
* `Touchstone.compareOutput_core` : two texts are the same exactly if they have the same core, and
  otherwise the diff shows a change.
-/

namespace Touchstone

open Text (Blank IsCore trim)

/-! ### A diff shows a change -/

namespace Diff

/-- A hunk without changed lines has the same lines of both texts. -/
theorem HunkText.old_eq_new {h : HunkText}
    (same : ∀ line ∈ h.body, ¬ (line.head? = some '-' ∨ line.head? = some '+')) :
    h.old = h.new := by
  have htags : ∀ line ∈ h.body, line.head? = some ' ' := fun line mem => by
    obtain ⟨tag, rest, rfl, htag⟩ := h.tagged line mem
    have hne := same _ mem
    simp only [List.head?_cons, Option.some.injEq] at hne ⊢
    simpa [not_or.1 hne] using htag
  rw [HunkText.old, HunkText.new, untag, untag]
  exact congrArg (List.map List.tail) (List.filter_congr fun line mem => by simp [htags line mem])

/-- The diff of texts with different lines names the texts and shows a line of one of them. -/
theorem exists_changed_line {actual expected : List Char}
    (ne : Text.lines (Text.complete actual) ≠ Text.lines (Text.complete expected)) :
    ∃ shown, Text.lines (unified actual expected).toList = titleLines ++ shown ∧
      ∃ line ∈ shown, line.head? = some '-' ∨ line.head? = some '+' := by
  obtain ⟨first, read, -, hlines, hold, hnew⟩ :=
    exists_reading_unified (mt (hunksOf_eq_nil_iff actual expected).1 ne)
  refine ⟨_, hlines, ?_⟩
  by_contra none
  have same : ∀ w ∈ read, w.1.old ++ w.2 = w.1.new ++ w.2 := fun w mem => by
    rw [HunkText.old_eq_new fun line hline hchanged => none
      ⟨line, List.mem_flatMap.2 ⟨w, mem, List.mem_cons_of_mem _ hline⟩, hchanged⟩]
  exact ne (by rw [hold, hnew, List.flatMap_congr same])

end Diff

/-! ### Completed cores -/

namespace Text

theorem complete_of_getLast? {text : List Char} (h : text.getLast? ≠ some '\n') :
    complete text = if text = [] then [] else text ++ ['\n'] := by
  rw [complete]
  split <;> simp_all

/-- Texts that end with no line feed are the same if their completed forms have the same lines. -/
theorem eq_of_lines_complete {a e : List Char} (ha : a.getLast? ≠ some '\n')
    (he : e.getLast? ≠ some '\n') (h : lines (complete a) = lines (complete e)) : a = e := by
  have hflat := congrArg List.flatten h
  rw [flatten_lines, flatten_lines, complete_of_getLast? ha, complete_of_getLast? he] at hflat
  by_cases hactual : a = []
  · by_cases hexpected : e = []
    · rw [hactual, hexpected]
    · simp [hactual, hexpected] at hflat
  · by_cases hexpected : e = []
    · simp [hactual, hexpected] at hflat
    · rw [if_neg hactual, if_neg hexpected] at hflat
      exact List.append_cancel_right hflat

theorem getLast?_trim (text : List Char) : (trim text).getLast? ≠ some '\n' := fun h => by
  have hlast := (isCore_trim text).last '\n' h
  exact absurd hlast (by decide)

end Text

/-! ### Comparisons -/

theorem compareOutput_eq_same_iff (actual expected : List Char) :
    compareOutput actual expected = .same ↔ trim actual = trim expected := by
  rw [compareOutput]
  split <;> simp_all

/-- Blank characters around two texts do not change their comparison.  Two texts are the same
exactly if they have the same core, which is an equivalence of texts.  If they differ, the diff is
not empty: its first lines name the texts, and one of the others is tagged as a line of one text
only. -/
theorem compareOutput_core {p q r s : List Char} (hp : Blank p) (hq : Blank q) (hr : Blank r)
    (hs : Blank s) (actual expected : List Char) :
    compareOutput (p ++ actual ++ q) (r ++ expected ++ s) = compareOutput actual expected ∧
    (compareOutput actual expected = .same ↔
      ∃ core, IsCore actual core ∧ IsCore expected core) ∧
    Equivalence (fun a e => compareOutput a e = .same) ∧
    ∀ diff, compareOutput actual expected = .differs diff →
      diff ≠ "" ∧ ∃ shown,
        Text.lines diff.toList = "--- actual\n".toList :: "+++ expected\n".toList :: shown ∧
        ∃ line ∈ shown, line.head? = some '-' ∨ line.head? = some '+' := by
  refine ⟨?_, ?_, ?_, fun diff h => ?_⟩
  · rw [compareOutput, compareOutput, Text.trim_pad hp hq, Text.trim_pad hr hs]
  · simp only [compareOutput_eq_same_iff, ← Text.trim_eq_iff]
    exact ⟨fun h => ⟨_, h, rfl⟩, fun ⟨_, hactual, hexpected⟩ => hactual.trans hexpected.symm⟩
  · simp only [compareOutput_eq_same_iff]
    exact ⟨fun _ => rfl, Eq.symm, Eq.trans⟩
  · rw [compareOutput] at h
    split at h
    · simp at h
    · rename_i ne
      obtain rfl := Comparison.differs.inj h
      obtain ⟨shown, hlines, hchanged⟩ := Diff.exists_changed_line fun hsame => ne
        (Text.eq_of_lines_complete (Text.getLast?_trim actual) (Text.getLast?_trim expected) hsame)
      refine ⟨fun hempty => ?_, shown, hlines, hchanged⟩
      rw [hempty] at hlines
      simp [Text.lines, Text.linesOnto, Diff.titleLines] at hlines

/-- A tab, a line feed and a space that breaks no line do not count at the ends of two texts. -/
theorem compareOutput_padded :
    Blank ['\t'] ∧ Blank ['\n'] ∧ Blank ['\u00A0'] ∧
      compareOutput (['\t'] ++ ['1', '\n', '2'] ++ ['\n']) ([] ++ ['1', ' ', '2'] ++ ['\u00A0']) =
        compareOutput ['1', '\n', '2'] ['1', ' ', '2'] := by
  have htab : Blank ['\t'] := by decide
  have hfeed : Blank ['\n'] := by decide
  have hspace : Blank ['\u00A0'] := by decide
  exact ⟨htab, hfeed, hspace, (compareOutput_core htab hfeed (by decide) hspace _ _).1⟩

end Touchstone
