import Mathlib
import Touchstone.Text.Line

/-!
# Reading the lines of a text

A line is a text without line breaks that is followed by one of the three endings.  The lines of a
text are described by a relation that mentions no scan: lines in order, where a carriage return that
stands alone is not followed by a line feed, and at most one open line at the end.

## Main definitions

* `Touchstone.Text.IsLine` : a line with its ending.
* `Touchstone.Text.Lined` : a text and its lines.

## Main results

* `Touchstone.Text.lines_eq_iff` : the lines of a text are those of the relation.
* `Touchstone.Text.flatten_lines` : a text is the concatenation of its lines.
* `Touchstone.Text.isLine_of_mem_lines_complete` : every line of a completed text has an ending.
-/

namespace Touchstone.Text

/-- A character that ends no line. -/
def IsPlain (c : Char) : Prop := c ≠ '\n' ∧ c ≠ '\r'

instance : DecidablePred IsPlain := fun c => inferInstanceAs (Decidable (c ≠ '\n' ∧ c ≠ '\r'))

/-- A line with its ending: a line feed, a carriage return with a line feed, or a carriage return
alone. -/
inductive IsLine : List Char → Prop
  | lf (body : List Char) (plain : ∀ c ∈ body, IsPlain c) : IsLine (body ++ ['\n'])
  | crlf (body : List Char) (plain : ∀ c ∈ body, IsPlain c) : IsLine (body ++ ['\r', '\n'])
  | cr (body : List Char) (plain : ∀ c ∈ body, IsPlain c) : IsLine (body ++ ['\r'])

/-- A text and its lines. -/
inductive Lined : List Char → List (List Char) → Prop
  | nil : Lined [] []
  | unended (line : List Char) (ne : line ≠ []) (plain : ∀ c ∈ line, IsPlain c) : Lined line [line]
  | cons {line rest : List Char} {ls : List (List Char)} (h : IsLine line)
      (sep : line.getLast? = some '\r' → rest.head? ≠ some '\n') (later : Lined rest ls) :
      Lined (line ++ rest) (line :: ls)

/-! ### The scan reads the lines -/

/-- Plain characters are collected for the open line. -/
theorem linesOnto_plain {body : List Char} (plain : ∀ c ∈ body, IsPlain c)
    (done : List (List Char)) (line rest : List Char) :
    linesOnto done line (body ++ rest) = linesOnto done (body.reverse ++ line) rest := by
  induction body generalizing line with
  | nil => rfl
  | cons c body ih =>
    obtain ⟨hlf, hcr⟩ := plain c List.mem_cons_self
    have hbody := ih (fun b hb => plain b (List.mem_cons_of_mem c hb)) (c :: line)
    simp [linesOnto, hlf, hcr, hbody]

/-- A carriage return alone ends the open line. -/
theorem linesOnto_cr (done : List (List Char)) (line : List Char) {rest : List Char}
    (sep : rest.head? ≠ some '\n') :
    linesOnto done line ('\r' :: rest) = linesOnto (('\r' :: line).reverse :: done) [] rest := by
  cases rest with
  | nil => simp [linesOnto]
  | cons c rest =>
    have hc : c ≠ '\n' := fun h => sep (by simp [h])
    rw [linesOnto]
    · simp
    · exact fun _ _ h => hc (by simp_all)

/-- A line at the start of a text is the first of its lines. -/
theorem linesOnto_isLine {line rest : List Char} (h : IsLine line)
    (sep : line.getLast? = some '\r' → rest.head? ≠ some '\n') (done : List (List Char)) :
    linesOnto done [] (line ++ rest) = linesOnto (line :: done) [] rest := by
  cases h with
  | lf body plain =>
    rw [List.append_assoc, linesOnto_plain plain]
    simp [linesOnto]
  | crlf body plain =>
    rw [List.append_assoc, linesOnto_plain plain]
    simp [linesOnto]
  | cr body plain =>
    rw [List.append_assoc, linesOnto_plain plain, List.singleton_append,
      linesOnto_cr _ _ (sep (by simp))]
    simp

theorem Lined.linesOnto_eq {text : List Char} {ls : List (List Char)} (h : Lined text ls)
    (done : List (List Char)) : linesOnto done [] text = done.reverse ++ ls := by
  induction h generalizing done with
  | nil => simp [linesOnto]
  | unended line ne plain =>
    have hscan := linesOnto_plain plain done [] []
    simp only [List.append_nil] at hscan
    rw [hscan]
    simp [linesOnto, ne]
  | cons h sep later ih =>
    rw [linesOnto_isLine h sep, ih, List.reverse_cons, List.append_assoc, List.singleton_append]

/-- Every text has lines; `line` is the part of the open line that is read already, reversed. -/
theorem exists_lined (done : List (List Char)) (line text : List Char)
    (plain : ∀ c ∈ line, IsPlain c) : ∃ ls, Lined (line.reverse ++ text) ls := by
  have hrev : ∀ c ∈ line.reverse, IsPlain c := fun c hc => plain c (List.mem_reverse.1 hc)
  fun_induction linesOnto done line text with
  | case1 done line =>
    rw [List.append_nil]
    by_cases ne : line.reverse = []
    · exact ⟨[], ne ▸ .nil⟩
    · exact ⟨_, .unended line.reverse ne hrev⟩
  | case2 done line rest ih =>
    obtain ⟨ls, later⟩ := ih (by simp) (by simp)
    have h := Lined.cons (.crlf _ hrev) (by simp) later
    exact ⟨_, by simpa using h⟩
  | case3 done line c rest hno hc ih =>
    obtain ⟨ls, later⟩ := ih (by simp) (by simp)
    rw [List.append_cons]
    rcases hc with rfl | rfl
    · exact ⟨_, .cons (.lf _ hrev) (by simp) later⟩
    · have sep : rest.head? ≠ some '\n' := fun hhead => by
        obtain ⟨tail, rfl⟩ := List.head?_eq_some_iff.1 hhead
        exact hno tail rfl rfl
      exact ⟨_, .cons (.cr _ hrev) (fun _ => sep) later⟩
  | case4 done line c rest hno hc ih =>
    have hplain : ∀ b ∈ c :: line, IsPlain b :=
      List.forall_mem_cons.2 ⟨not_or.1 hc, plain⟩
    have := ih hplain fun b hb => hplain b (List.mem_reverse.1 hb)
    simpa using this

/-- The lines of a text are those that the relation gives it. -/
theorem lines_eq_iff {text : List Char} {ls : List (List Char)} :
    lines text = ls ↔ Lined text ls := by
  have hlines : ∀ {ls}, Lined text ls → lines text = ls := fun h => by
    simpa [lines] using h.linesOnto_eq []
  constructor
  · rintro rfl
    obtain ⟨ls, h⟩ := exists_lined [] [] text (by simp)
    rwa [hlines h]
  · exact hlines

theorem lined_lines (text : List Char) : Lined text (lines text) := lines_eq_iff.1 rfl

/-! ### Lines of a text -/

theorem Lined.flatten {text : List Char} {ls : List (List Char)} (h : Lined text ls) :
    ls.flatten = text := by
  induction h with
  | nil => rfl
  | unended line => simp
  | cons _ _ _ ih => rw [List.flatten_cons, ih]

/-- A text is the concatenation of its lines. -/
theorem flatten_lines (text : List Char) : (lines text).flatten = text :=
  (lined_lines text).flatten

theorem IsLine.ne_nil {line : List Char} (h : IsLine line) : line ≠ [] := by
  cases h <;> simp

/-- A line with an ending ends with a line feed or a carriage return. -/
theorem IsLine.getLast? {line : List Char} (h : IsLine line) :
    line.getLast? = some '\n' ∨ line.getLast? = some '\r' := by
  cases h <;> simp

/-- A line stays a line behind a plain character. -/
theorem IsLine.cons {line : List Char} (h : IsLine line) {c : Char} (hc : IsPlain c) :
    IsLine (c :: line) := by
  cases h with
  | lf body plain => exact .lf (c :: body) (List.forall_mem_cons.2 ⟨hc, plain⟩)
  | crlf body plain => exact .crlf (c :: body) (List.forall_mem_cons.2 ⟨hc, plain⟩)
  | cr body plain => exact .cr (c :: body) (List.forall_mem_cons.2 ⟨hc, plain⟩)

/-- If a text is empty or ends with a line feed, then each of its lines has an ending. -/
theorem Lined.isLine {text : List Char} {ls : List (List Char)} (h : Lined text ls)
    (ended : text = [] ∨ text.getLast? = some '\n') : ∀ l ∈ ls, IsLine l := by
  induction h with
  | nil => simp
  | unended line ne plain =>
    have hlast := ended.resolve_left ne
    exact absurd rfl (plain '\n' (List.mem_of_getLast? hlast)).1
  | @cons line rest ls hline sep later ih =>
    refine List.forall_mem_cons.2 ⟨hline, ih ?_⟩
    by_cases hrest : rest = []
    · exact .inl hrest
    · have hlast := ended.resolve_left (by simp [hrest])
      rw [List.getLast?_append, Option.or_of_isSome (List.getLast?_isSome.2 hrest)] at hlast
      exact .inr hlast

/-- A completed text is empty or ends with a line feed. -/
theorem complete_ended (text : List Char) :
    complete text = [] ∨ (complete text).getLast? = some '\n' := by
  rw [complete]
  split
  · rename_i h
    simpa using h
  · exact .inr (by simp)

/-- Every line of a completed text has an ending. -/
theorem isLine_of_mem_lines_complete {text l : List Char} (h : l ∈ lines (complete text)) :
    IsLine l :=
  (lined_lines _).isLine (complete_ended text) l h

/-- Lines with endings, none of which begins with a line feed, are the lines of their text. -/
theorem lines_flatten {ls : List (List Char)}
    (h : ∀ l ∈ ls, IsLine l ∧ l.head? ≠ some '\n') : lines ls.flatten = ls := by
  rw [lines_eq_iff]
  induction ls with
  | nil => exact .nil
  | cons l ls ih =>
    obtain ⟨⟨hl, -⟩, hrest⟩ := List.forall_mem_cons.1 h
    refine .cons hl (fun _ => ?_) (ih hrest)
    cases ls with
    | nil => simp
    | cons next ls =>
      obtain ⟨hnext, hhead⟩ := hrest next List.mem_cons_self
      obtain ⟨c, cs, rfl⟩ := List.exists_cons_of_ne_nil hnext.ne_nil
      simpa using hhead

/-- A carriage return alone ends a line; before a line feed it does not. -/
example : lines "a\rb\r\nc".toList = ["a\r".toList, "b\r\n".toList, "c".toList] := by decide

end Touchstone.Text
