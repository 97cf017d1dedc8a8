import Mathlib
import Touchstone.Diff.Unified
import Touchstone.Proofs.Diff.Layout
import Touchstone.Proofs.Text.Line

/-!
# Reading a unified diff

A diff is read by its lines alone: each hunk is a header and lines that begin with a tag.  Both
texts are read back from it, up to the lines that stand between the hunks, and those are the same
in both texts.

## Main definitions

* `Touchstone.Diff.HunkText` : a hunk as a reader finds it, a header and tagged lines.
* `Touchstone.Diff.HunkText.old`, `Touchstone.Diff.HunkText.new` : the lines of both texts in it.
* `Touchstone.Diff.HunkText.Shows` : the hunk as a reader finds it is made from some blocks.
* `Touchstone.Diff.diffLines` : the lines of a diff with some hunks.

## Main results

* `Touchstone.Diff.exists_reading_hunks` : a diff is read line by line, and it shows the hunks of
  the texts.
* `Touchstone.Diff.unified_reads` : the diff of two texts is empty if their lines are the same;
  otherwise both texts are its lines with common lines between the hunks.
-/

namespace Touchstone.Diff

open Text (IsLine IsPlain)

/-! ### Hunks as text -/

/-- The lines that begin with one of some tags, without the tags. -/
def untag (tags : List Char) (body : List Line) : List Line :=
  (body.filter fun line => line.head?.any (· ∈ tags)).map List.tail

/-- A hunk as a reader finds it: a header, and lines that begin with one of three tags. -/
structure HunkText where
  /-- The header. -/
  header : Line
  /-- The lines below the header, with their tags. -/
  body : List Line
  header_eq : ∃ ranges, header = "@@ ".toList ++ ranges ++ " @@\n".toList
  tagged : ∀ line ∈ body, ∃ tag rest, line = tag :: rest ∧ tag ∈ [' ', '-', '+']

namespace HunkText

/-- The lines of a hunk. -/
def lines (h : HunkText) : List Line := h.header :: h.body

/-- The lines of the old text in a hunk. -/
def old (h : HunkText) : List Line := untag [' ', '-'] h.body

/-- The lines of the new text in a hunk. -/
def new (h : HunkText) : List Line := untag [' ', '+'] h.body

end HunkText

/-! ### Tags -/

@[simp] theorem untag_nil (tags : List Char) : untag tags [] = [] := rfl

@[simp] theorem untag_append (tags : List Char) (body body' : List Line) :
    untag tags (body ++ body') = untag tags body ++ untag tags body' := by
  simp [untag]

theorem untag_map_cons (tags : List Char) (tag : Char) (lines : List Line) :
    untag tags (lines.map (tag :: ·)) = if tag ∈ tags then lines else [] := by
  split <;> rename_i h <;> simp [untag, List.filter_map, Function.comp_def, h]

/-- A line of a hunk behind its tag. -/
def Marked.tagged (m : Marked) : Line := m.mark :: m.line

theorem Marked.mark_mem (m : Marked) : m.mark ∈ [' ', '-', '+'] := by
  cases m <;> simp [Marked.mark]

/-- A line with an ending is shown behind its tag, and no hint follows it. -/
theorem Marked.text_eq_tagged {m : Marked} (h : IsLine m.line) : m.text = m.tagged := by
  rw [Marked.text, if_pos, Marked.tagged]
  rcases h.getLast? with hlast | hlast <;> simp [hlast]

theorem Marked.isLine_tagged {m : Marked} (h : IsLine m.line) : IsLine m.tagged := by
  refine h.cons ?_
  cases m <;> simp [Marked.mark, IsPlain]

/-- The lines of a block behind their tags. -/
def Block.tagged (b : Block Line) : List Line := b.marked.map Marked.tagged

theorem Block.untag_tagged (b : Block Line) :
    untag [' ', '-'] b.tagged = b.old ∧ untag [' ', '+'] b.tagged = b.new := by
  cases b with
  | keep pos lines =>
    have h : (Block.keep pos lines).tagged = lines.map (' ' :: ·) := by
      simp [Block.tagged, Block.marked, Marked.tagged, Marked.mark, Marked.line, Function.comp_def]
    rw [h, untag_map_cons, untag_map_cons]
    exact ⟨rfl, rfl⟩
  | change pos deleted inserted =>
    have h : (Block.change pos deleted inserted).tagged =
        deleted.map ('-' :: ·) ++ inserted.map ('+' :: ·) := by
      simp [Block.tagged, Block.marked, Marked.tagged, Marked.mark, Marked.line, Function.comp_def]
    simp [h, untag_map_cons, Block.old, Block.new]

theorem untag_flatMap_tagged (hunk : List (Block Line)) :
    untag [' ', '-'] (hunk.flatMap Block.tagged) = oldOf hunk ∧
      untag [' ', '+'] (hunk.flatMap Block.tagged) = newOf hunk := by
  induction hunk with
  | nil => exact ⟨rfl, rfl⟩
  | cons b hunk ih => simp [b.untag_tagged, ih]

/-! ### Headers -/

theorem isPlain_toDigits (n : Nat) : ∀ c ∈ Nat.toDigits 10 n, IsPlain c := by
  intro c h
  have hdigit := Nat.isDigit_of_mem_toDigits (by decide) (by decide) h
  constructor <;> rintro rfl <;> simp at hdigit

theorem isPlain_stretch (first last : Nat) : ∀ c ∈ (stretch first last).toList, IsPlain c := by
  rw [stretch]
  split
  · simp only [toString, String.toList_append, Nat.toList_repr, List.forall_mem_append]
    exact ⟨isPlain_toDigits first, by simp [IsPlain]⟩
  · simp only [toString, Nat.toList_repr]
    exact isPlain_toDigits (first + 1)
  · simp only [toString, String.toList_append, Nat.toList_repr, List.forall_mem_append]
    exact ⟨⟨isPlain_toDigits (first + 1), by simp [IsPlain]⟩, isPlain_toDigits _⟩

/-- The header of a hunk, opened and closed by two signs. -/
theorem header_toList {hunk : List (Block Line)} (ne : hunk ≠ []) :
    ∃ ranges, (∀ c ∈ ranges, IsPlain c) ∧
      (header hunk).toList = "@@ ".toList ++ ranges ++ " @@".toList := by
  obtain ⟨first, hfirst⟩ := Option.isSome_iff_exists.1 (List.isSome_head?.2 ne)
  obtain ⟨last, hlast⟩ := Option.isSome_iff_exists.1 (List.getLast?_isSome.2 ne)
  simp only [header, hfirst, hlast]
  refine ⟨'-' :: (stretch first.pos.old (last.pos.old + last.old.length)).toList ++
    " +".toList ++ (stretch first.pos.new (last.pos.new + last.new.length)).toList, ?_, ?_⟩
  · simp only [List.cons_append, List.forall_mem_cons, List.forall_mem_append]
    exact ⟨by decide, ⟨isPlain_stretch _ _, by simp [IsPlain]⟩, isPlain_stretch _ _⟩
  · simp [toString]

/-! ### The text of a hunk -/

namespace HunkText

/-- A hunk as a reader finds it. -/
def ofHunk (hunk : List (Block Line)) (ne : hunk ≠ []) : HunkText where
  header := (Diff.header hunk).toList ++ ['\n']
  body := hunk.flatMap Block.tagged
  header_eq := by
    obtain ⟨ranges, -, hheader⟩ := header_toList ne
    exact ⟨ranges, by simp [hheader]⟩
  tagged := by
    simp only [List.mem_flatMap, Block.tagged, List.mem_map]
    rintro _ ⟨b, -, m, -, rfl⟩
    exact ⟨m.mark, m.line, rfl, m.mark_mem⟩

/-- A hunk as a reader finds it shows some blocks: their header, and their lines with tags. -/
structure Shows (h : HunkText) (hunk : List (Block Line)) : Prop where
  header : h.header = (Diff.header hunk).toList ++ ['\n']
  body : h.body = hunk.flatMap Block.tagged

theorem shows_ofHunk {hunk : List (Block Line)} (ne : hunk ≠ []) : (ofHunk hunk ne).Shows hunk :=
  ⟨rfl, rfl⟩

theorem Shows.old {h : HunkText} {hunk : List (Block Line)} (shows : h.Shows hunk) :
    h.old = oldOf hunk := by
  rw [HunkText.old, shows.body, (untag_flatMap_tagged hunk).1]

theorem Shows.new {h : HunkText} {hunk : List (Block Line)} (shows : h.Shows hunk) :
    h.new = newOf hunk := by
  rw [HunkText.new, shows.body, (untag_flatMap_tagged hunk).2]

/-- Every line of a hunk begins with a sign of a header or with a tag. -/
theorem exists_cons_of_mem_lines {h : HunkText} {line : Line} (mem : line ∈ h.lines) :
    ∃ tag rest, line = tag :: rest ∧ tag ∈ ['@', ' ', '-', '+'] := by
  rcases List.mem_cons.1 mem with rfl | mem
  · obtain ⟨ranges, hheader⟩ := h.header_eq
    exact ⟨'@', _, hheader, by simp⟩
  · obtain ⟨tag, rest, hline, htag⟩ := h.tagged line mem
    exact ⟨tag, rest, hline, List.mem_cons_of_mem _ htag⟩

end HunkText

theorem Block.line_mem_of_mem_marked {b : Block Line} {m : Marked} (mem : m ∈ b.marked) :
    m.line ∈ b.old ∨ m.line ∈ b.new := by
  cases b with
  | keep pos lines =>
    obtain ⟨line, hline, rfl⟩ := List.mem_map.1 mem
    exact .inl hline
  | change pos deleted inserted =>
    rcases List.mem_append.1 mem with mem | mem
    · obtain ⟨line, hline, rfl⟩ := List.mem_map.1 mem
      exact .inl hline
    · obtain ⟨line, hline, rfl⟩ := List.mem_map.1 mem
      exact .inr hline

section Ended

variable {hunk : List (Block Line)} (old : ∀ line ∈ oldOf hunk, IsLine line)
  (new : ∀ line ∈ newOf hunk, IsLine line)

include old new

theorem isLine_of_mem_flatMap_marked {m : Marked} (mem : m ∈ hunk.flatMap Block.marked) :
    IsLine m.line := by
  obtain ⟨b, hb, hm⟩ := List.mem_flatMap.1 mem
  rcases Block.line_mem_of_mem_marked hm with hline | hline
  · exact old m.line (List.mem_flatMap.2 ⟨b, hb, hline⟩)
  · exact new m.line (List.mem_flatMap.2 ⟨b, hb, hline⟩)

/-- The text of a hunk is that of its lines: no hint stands between them. -/
theorem hunkText_eq (ne : hunk ≠ []) : hunkText hunk = (HunkText.ofHunk hunk ne).lines.flatten := by
  have htagged : hunk.flatMap Block.tagged = (hunk.flatMap Block.marked).map Marked.tagged :=
    List.map_flatMap.symm
  have htext : (hunk.flatMap Block.marked).map Marked.text =
      (hunk.flatMap Block.marked).map Marked.tagged :=
    List.map_congr_left fun m hm => Marked.text_eq_tagged (isLine_of_mem_flatMap_marked old new hm)
  simp only [hunkText, HunkText.lines, HunkText.ofHunk, List.flatten_cons]
  rw [htagged, ← htext, ← List.flatMap_def, List.append_assoc, List.singleton_append]

theorem isLine_of_mem_ofHunk (ne : hunk ≠ []) :
    ∀ line ∈ (HunkText.ofHunk hunk ne).lines, IsLine line := by
  refine List.forall_mem_cons.2 ⟨?_, ?_⟩
  · obtain ⟨ranges, plain, hheader⟩ := header_toList ne
    refine .lf (header hunk).toList ?_
    rw [hheader]
    simp only [List.forall_mem_append]
    exact ⟨⟨by simp [IsPlain], plain⟩, by simp [IsPlain]⟩
  · intro line hline
    obtain ⟨b, hb, hline⟩ := List.mem_flatMap.1 hline
    obtain ⟨m, hm, rfl⟩ := List.mem_map.1 hline
    exact Marked.isLine_tagged
      (isLine_of_mem_flatMap_marked old new (List.mem_flatMap.2 ⟨b, hb, hm⟩))

end Ended

/-! ### The text of a diff -/

/-- Hunks of lines with endings are read by their lines. -/
theorem exists_texts {hunks : List (List (Block Line))} (ne : ∀ hunk ∈ hunks, hunk ≠ [])
    (hold : ∀ hunk ∈ hunks, ∀ line ∈ oldOf hunk, IsLine line)
    (hnew : ∀ hunk ∈ hunks, ∀ line ∈ newOf hunk, IsLine line) :
    ∃ texts : List HunkText, List.Forall₂ (fun hunk h => h.Shows hunk) hunks texts ∧
      hunks.flatMap hunkText = (texts.flatMap HunkText.lines).flatten ∧
      ∀ h ∈ texts, ∀ line ∈ h.lines, IsLine line := by
  induction hunks with
  | nil => exact ⟨[], .nil, rfl, by simp⟩
  | cons hunk hunks ih =>
    rw [List.forall_mem_cons] at ne hold hnew
    obtain ⟨texts, hshows, htext, hlines⟩ := ih ne.2 hold.2 hnew.2
    refine ⟨.ofHunk hunk ne.1 :: texts, .cons (HunkText.shows_ofHunk ne.1) hshows, ?_, ?_⟩
    · rw [List.flatMap_cons, List.flatMap_cons, List.flatten_append, htext,
        hunkText_eq hold.1 hnew.1 ne.1]
    · exact List.forall_mem_cons.2 ⟨isLine_of_mem_ofHunk hold.1 hnew.1 ne.1, hlines⟩

/-- Hunks that are laid in two lists are read with the lines that stand between them. -/
theorem Laid.exists_reading {hunks : List (List (Block Line))} {old new : List Line}
    {texts : List HunkText} (h : Laid hunks old new)
    (hshows : List.Forall₂ (fun hunk h => h.Shows hunk) hunks texts) :
    ∃ (first : List Line) (read : List (HunkText × List Line)), read.map Prod.fst = texts ∧
      old = first ++ read.flatMap (fun p => p.1.old ++ p.2) ∧
      new = first ++ read.flatMap (fun p => p.1.new ++ p.2) := by
  induction h generalizing texts with
  | nil gap =>
    cases hshows
    exact ⟨gap, [], rfl, by simp, by simp⟩
  | cons gap hunk later ih =>
    obtain _ | ⟨shows, hshows⟩ := hshows
    obtain ⟨first, read, rfl, hold, hnew⟩ := ih hshows
    refine ⟨gap, (_, first) :: read, rfl, ?_, ?_⟩
    · rw [hold, List.flatMap_cons, shows.old, List.append_assoc]
    · rw [hnew, List.flatMap_cons, shows.new, List.append_assoc]

/-- The hunks of two texts are laid in their lines. -/
theorem laid_hunksOf (old new : List Char) :
    Laid (hunksOf old new) (Text.lines (Text.complete old)) (Text.lines (Text.complete new)) := by
  have h := laid_hunks contextRadius
    (blocks (script (Text.lines (Text.complete old)) (Text.lines (Text.complete new))))
  rwa [oldOf_blocks, newOf_blocks, script, oldLines_compact_steps, newLines_compact_steps] at h

theorem hunksOf_eq_nil_iff (old new : List Char) :
    hunksOf old new = [] ↔ Text.lines (Text.complete old) = Text.lines (Text.complete new) := by
  constructor
  · intro h
    have hlaid := laid_hunksOf old new
    rw [h] at hlaid
    exact hlaid.eq_of_nil
  · intro h
    rw [hunksOf, h, script, steps_self, compact_step?_keep, hunks_of_kept]

/-- The lines that name the two texts. -/
def titleLines : List Line := ["--- actual\n".toList, "+++ expected\n".toList]

theorem unified_toList {old new : List Char} (ne : hunksOf old new ≠ []) :
    (unified old new).toList = titleLines.flatten ++ (hunksOf old new).flatMap hunkText := by
  rw [unified]
  split
  · contradiction
  · rw [String.toList_append, String.toList_ofList]
    rfl

theorem isLine_of_mem_titleLines : ∀ line ∈ titleLines, IsLine line := by
  simp only [titleLines, List.forall_mem_cons]
  exact ⟨.lf "--- actual".toList (by simp [IsPlain]), .lf "+++ expected".toList (by simp [IsPlain]),
    by simp⟩

/-- Every line of a diff begins with a sign of a title or of a hunk. -/
theorem head?_ne_of_mem_shown {read : List (HunkText × List Line)} {line : Line}
    (mem : line ∈ titleLines ++ read.flatMap (·.1.lines)) {c : Char}
    (hc : c ∉ ['@', ' ', '-', '+']) : line.head? ≠ some c := by
  have htitles : ∀ line ∈ titleLines, ∃ c ∈ ['@', ' ', '-', '+'], line.head? = some c := by
    simp [titleLines]
  rintro hhead
  rcases List.mem_append.1 mem with mem | mem
  · obtain ⟨c', hc', hline⟩ := htitles line mem
    rw [hhead] at hline
    exact hc (Option.some.inj hline ▸ hc')
  · obtain ⟨p, -, hline⟩ := List.mem_flatMap.1 mem
    obtain ⟨tag, rest, rfl, htag⟩ := HunkText.exists_cons_of_mem_lines hline
    exact hc (Option.some.inj hhead ▸ htag)

/-- The title lines and the lines of some hunks are the lines of their text. -/
theorem lines_titles_append {read : List (HunkText × List Line)}
    (h : ∀ p ∈ read, ∀ line ∈ p.1.lines, IsLine line) :
    Text.lines (titleLines.flatten ++ (read.flatMap (·.1.lines)).flatten) =
      titleLines ++ read.flatMap (·.1.lines) := by
  rw [← List.flatten_append]
  refine Text.lines_flatten fun line hline => ⟨?_, head?_ne_of_mem_shown hline (by decide)⟩
  rcases List.mem_append.1 hline with hline | hline
  · exact isLine_of_mem_titleLines line hline
  · obtain ⟨p, hp, hline⟩ := List.mem_flatMap.1 hline
    exact h p hp line hline

/-- The lines of a diff with some hunks; a diff without a hunk has none. -/
def diffLines (texts : List HunkText) : List Line :=
  if texts = [] then [] else titleLines ++ texts.flatMap HunkText.lines

/-- A diff is read line by line, and it shows the hunks of the texts. -/
theorem exists_reading_hunks (actual expected : List Char) :
    ∃ (first : List Line) (read : List (HunkText × List Line)),
      List.Forall₂ (fun hunk h => h.Shows hunk) (hunksOf actual expected) (read.map Prod.fst) ∧
      Text.lines (unified actual expected).toList = diffLines (read.map Prod.fst) ∧
      Text.lines (Text.complete actual) = first ++ read.flatMap (fun p => p.1.old ++ p.2) ∧
      Text.lines (Text.complete expected) = first ++ read.flatMap (fun p => p.1.new ++ p.2) := by
  have hlaid := laid_hunksOf actual expected
  obtain ⟨texts, hshows, htext, hlines⟩ := exists_texts
    (fun hunk (h : hunk ∈ hunksOf actual expected) => ne_nil_of_mem_hunksFrom h)
    (fun hunk h line mem => Text.isLine_of_mem_lines_complete (hlaid.old_mem h mem))
    (fun hunk h line mem => Text.isLine_of_mem_lines_complete (hlaid.new_mem h mem))
  obtain ⟨first, read, rfl, hold, hnew⟩ := hlaid.exists_reading hshows
  refine ⟨first, read, hshows, ?_, hold, hnew⟩
  by_cases none : hunksOf actual expected = []
  · obtain rfl : read = [] := by simpa [none] using hshows.length_eq.symm
    have hempty : unified actual expected = "" := by rw [unified, none]
    rw [hempty]
    rfl
  · have hread : read ≠ [] := by
      rintro rfl
      exact none (List.length_eq_zero_iff.1 hshows.length_eq)
    have hended : ∀ p ∈ read, ∀ line ∈ p.1.lines, IsLine line := by simpa using hlines
    rw [diffLines, if_neg (by simpa using hread), unified_toList none, htext, List.flatMap_map,
      lines_titles_append hended]

/-- A diff with hunks is read line by line. -/
theorem exists_reading_unified {actual expected : List Char} (ne : hunksOf actual expected ≠ []) :
    ∃ (first : List Line) (read : List (HunkText × List Line)), read ≠ [] ∧
      Text.lines (unified actual expected).toList = titleLines ++ read.flatMap (·.1.lines) ∧
      Text.lines (Text.complete actual) = first ++ read.flatMap (fun p => p.1.old ++ p.2) ∧
      Text.lines (Text.complete expected) = first ++ read.flatMap (fun p => p.1.new ++ p.2) := by
  obtain ⟨first, read, hshows, hlines, hold, hnew⟩ := exists_reading_hunks actual expected
  have hread : read ≠ [] := by
    rintro rfl
    exact ne (List.length_eq_zero_iff.1 hshows.length_eq)
  refine ⟨first, read, hread, ?_, hold, hnew⟩
  rw [hlines, diffLines, if_neg (by simpa using hread), List.flatMap_map]

/-- The diff of two texts is empty if their lines are the same.  Otherwise it names the texts and
shows hunks, and each text is made of its lines in the hunks, in order, and of lines that both texts
have before, between and behind the hunks.  No line of it is a hint. -/
theorem unified_reads (actual expected : List Char) :
    let old := Text.lines (Text.complete actual)
    let new := Text.lines (Text.complete expected)
    let shown := Text.lines (unified actual expected).toList
    (old = new ∧ unified actual expected = "" ∨
      old ≠ new ∧ ∃ (first : List Line) (read : List (HunkText × List Line)), read ≠ [] ∧
        shown = "--- actual\n".toList :: "+++ expected\n".toList :: read.flatMap (·.1.lines) ∧
        old = first ++ read.flatMap (fun p => p.1.old ++ p.2) ∧
        new = first ++ read.flatMap (fun p => p.1.new ++ p.2)) ∧
    ∀ line ∈ shown, line.head? ≠ some '\\' := by
  intro old new shown
  by_cases same : old = new
  · have hempty : unified actual expected = "" := by
      rw [unified, (hunksOf_eq_nil_iff actual expected).2 same]
    have hshown : shown = [] := by
      simp only [shown, hempty]
      rfl
    exact ⟨.inl ⟨same, hempty⟩, by simp [hshown]⟩
  · have ne : hunksOf actual expected ≠ [] := mt (hunksOf_eq_nil_iff actual expected).1 same
    obtain ⟨first, read, hread, hlines, hold, hnew⟩ := exists_reading_unified ne
    have hshown : shown = titleLines ++ read.flatMap (·.1.lines) := hlines
    refine ⟨.inr ⟨same, first, read, hread, hshown, hold, hnew⟩, fun line hline => ?_⟩
    exact head?_ne_of_mem_shown (hshown ▸ hline) (by decide)

end Touchstone.Diff
