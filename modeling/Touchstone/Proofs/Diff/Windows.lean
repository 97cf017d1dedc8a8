import Touchstone.Proofs.Diff.Blocks
import Touchstone.Proofs.Diff.Reading

/-!
# Hunks as windows

The hunks of a script are windows onto its lines.  Kept runs at the ends of a hunk have at most
`radius` lines, those inside at most twice as many.  Where lines are hidden before or behind a hunk,
the hunk ends there with exactly `radius` kept lines, so that the hidden lines are farther from
every change.

## Main definitions

* `Touchstone.Diff.Cut` : blocks that are cut at both ends.
* `Touchstone.Diff.Windows` : hunks in a list of tagged lines, with kept lines behind each.
* `Touchstone.Diff.displayed` : the displayed script of two texts, as tagged lines.

## Main results

* `Touchstone.Diff.windows_hunks` : the hunks of blocks are windows onto the lines of the blocks.
* `Touchstone.Diff.windows_hunksOf` : the hunks of two texts are windows onto the displayed script.
-/

namespace Touchstone.Diff

variable {n r : Nat} {p pos : Position} {lines gap behind : List Line}
  {hunk rest all : List (Block Line)}

/-! ### Lines of both texts -/

/-- Lines of both texts behind their tag. -/
def sameLines (lines : List Line) : List Line := lines.map (' ' :: ·)

@[simp] theorem sameLines_nil : sameLines [] = [] := rfl

@[simp] theorem length_sameLines (lines : List Line) : (sameLines lines).length = lines.length := by
  simp [sameLines]

@[simp] theorem sameLines_append (s t : List Line) :
    sameLines (s ++ t) = sameLines s ++ sameLines t := by
  simp [sameLines]

@[simp] theorem Block.tagged_keep (pos : Position) (lines : List Line) :
    (Block.keep pos lines).tagged = sameLines lines := by
  simp [Block.tagged, Block.marked, Marked.tagged, Marked.mark, Marked.line, sameLines,
    Function.comp_def]

@[simp] theorem Block.tagged_change (pos : Position) (deleted inserted : List Line) :
    (Block.change pos deleted inserted).tagged =
      deleted.map ('-' :: ·) ++ inserted.map ('+' :: ·) := by
  simp [Block.tagged, Block.marked, Marked.tagged, Marked.mark, Marked.line, Function.comp_def]

@[simp] theorem Block.next_keep (p pos : Position) (lines : List Line) :
    Block.next p (.keep pos lines) = p.advance lines.length lines.length := rfl

@[simp] theorem Block.firstLines_keep (pos : Position) (lines : List Line) :
    (Block.keep pos lines).firstLines r = .keep pos (lines.take r) := rfl

@[simp] theorem Block.lastLines_keep (pos : Position) (lines : List Line) :
    (Block.keep pos lines).lastLines r =
      .keep (pos.advance (lines.length - r) (lines.length - r)) (lines.drop (lines.length - r)) :=
  rfl

/-! ### Blocks that are cut at their ends -/

/-- Blocks that are cut at their start: they begin with at most `r` kept lines, and with `r` of them
unless they begin at the start of both texts. -/
structure CutAhead (n r : Nat) (p : Position) (all : List (Block Line)) : Prop where
  stands : Along Block.next (Block.StandsAt n) p all
  alternates : Alternates all
  changes : ∃ b ∈ all, b.isKeep = false
  first : ∀ pos lines, all.head? = some (.keep pos lines) → lines.length ≤ r
  opens : p ≠ ⟨0, 0⟩ → ∃ pos lines, all.head? = some (.keep pos lines) ∧ lines.length = r

/-- Blocks that are cut at both ends, where the kept lines `behind` follow but are not shown: if
there are such lines, the blocks end with `r` kept lines. -/
structure Cut (n r : Nat) (p : Position) (all : List (Block Line)) (behind : List Line) : Prop
    extends CutAhead n r p all where
  last : ∀ pos lines, all.getLast? = some (.keep pos lines) → lines.length ≤ r
  closes : behind ≠ [] → ∃ pos lines, all.getLast? = some (.keep pos lines) ∧ lines.length = r

/-- Hunks that begin at a position, as windows onto tagged lines.  Kept lines that are not shown
stand behind each hunk, and at least one of them if another hunk follows. -/
inductive Windows (n r : Nat) : Position → List (List (Block Line)) → List Line → Prop
  | nil (p : Position) : Windows n r p [] []
  | cons {p : Position} {hunk : List (Block Line)} {gap : List Line}
      {hunks : List (List (Block Line))} {all : List Line} (cut : Cut n r p hunk gap)
      (short : ∀ pos lines, .keep pos lines ∈ hunk → lines.length ≤ 2 * r)
      (apart : hunks ≠ [] → gap ≠ [])
      (later : Windows n r ((hunk.foldl Block.next p).advance gap.length gap.length) hunks all) :
      Windows n r p (hunk :: hunks) (hunk.flatMap Block.tagged ++ (sameLines gap ++ all))

/-! ### Neighbours of a kept run -/

theorem Alternates.of_append {s t : List (Block Line)} (h : Alternates (s ++ t)) :
    Alternates s ∧ Alternates t := by
  rw [Alternates, List.map_append, List.isChain_append] at h
  exact ⟨h.1, h.2.1⟩

/-- Behind a kept run stands a change. -/
theorem Alternates.isKeep_of_keep {b : Block Line} (h : Alternates (.keep pos lines :: b :: rest)) :
    b.isKeep = false := by
  simpa [Alternates, Block.isKeep] using (List.isChain_cons_cons.1 h).1

/-- Before a kept run stands a change. -/
theorem Alternates.isKeep_before_keep {b : Block Line}
    (h : Alternates (hunk ++ b :: .keep pos lines :: rest)) : b.isKeep = false := by
  simpa [Alternates, Block.isKeep] using (List.isChain_cons_cons.1 h.of_append.2).1

/-! ### A long kept run in cut blocks -/

/-- The blocks up to a kept run that is not the first, cut to its first lines. -/
theorem CutAhead.upTo_keep (hr : 0 < r) (hne : hunk ≠ [])
    (h : CutAhead n r p (hunk ++ .keep pos lines :: rest)) :
    CutAhead n r p (hunk ++ [.keep pos (lines.take r)]) := by
  obtain ⟨init, b, rfl⟩ : ∃ init b, hunk = init ++ [b] :=
    ⟨_, _, (List.dropLast_concat_getLast hne).symm⟩
  have hhead : ∀ t : List (Block Line),
      (init ++ [b] ++ t).head? = (init ++ [b] ++ .keep pos lines :: rest).head? := fun t => by
    rw [List.head?_append_of_ne_nil _ hne, List.head?_append_of_ne_nil _ hne]
  obtain ⟨stands, ⟨hlines, hpos⟩, -⟩ := along_append.1 h.stands
  refine ⟨along_concat.2 ⟨stands, by simp [hlines, hr.ne'], hpos⟩, ?_, ?_, ?_, ?_⟩
  · rw [List.append_cons] at h
    simpa [Alternates, Block.isKeep] using h.alternates.of_append.1
  · have hchain := h.alternates
    rw [List.append_assoc] at hchain
    exact ⟨b, by simp, hchain.isKeep_before_keep⟩
  · rw [hhead]
    exact h.first
  · rw [hhead]
    exact h.opens

/-- The blocks up to a long kept run, which is cut to its first lines. -/
theorem Cut.before_long (hr : 0 < r) (long : 2 * r < lines.length)
    (h : Cut n r p (hunk ++ .keep pos lines :: rest) behind) (hidden : List Line) :
    Cut n r p (hunk ++ [.keep pos (lines.take r)]) hidden := by
  have hlength : (lines.take r).length = r := List.length_take_of_le (by omega)
  have hne : hunk ≠ [] := by
    rintro rfl
    have := h.first pos lines rfl
    omega
  refine ⟨h.upTo_keep hr hne, ?_, fun _ => ⟨pos, lines.take r, by simp, hlength⟩⟩
  rintro pos' lines' heq
  obtain ⟨-, rfl⟩ : pos = pos' ∧ lines.take r = lines' := by simpa using heq
  exact hlength.le

/-- The blocks from a long kept run on, which is cut to its last lines. -/
theorem Cut.behind_long (hr : 0 < r) (long : 2 * r < lines.length)
    (h : Cut n r p (hunk ++ .keep pos lines :: rest) behind) :
    Cut n r (pos.advance (lines.length - r) (lines.length - r))
      (.keep (pos.advance (lines.length - r) (lines.length - r))
        (lines.drop (lines.length - r)) :: rest) behind := by
  have hlength : (lines.drop (lines.length - r)).length = r := by
    rw [List.length_drop]
    omega
  obtain ⟨c, rest, rfl⟩ : ∃ c rest', rest = c :: rest' := by
    refine List.exists_cons_of_ne_nil ?_
    rintro rfl
    have := h.last pos lines (by simp)
    omega
  have hlast : (c :: rest).getLast? = (hunk ++ .keep pos lines :: c :: rest).getLast? := by
    rw [List.getLast?_append_of_ne_nil _ (List.cons_ne_nil _ _), List.getLast?_cons_cons]
  have hchain := h.alternates.of_append.2
  obtain ⟨-, ⟨-, rfl⟩, stands⟩ := along_append.1 h.stands
  refine ⟨⟨⟨⟨List.ne_nil_of_length_pos (by omega), rfl⟩, ?_⟩, hchain, ?_, ?_, ?_⟩, ?_, ?_⟩
  · rw [Block.next_keep, Position.advance_advance, hlength, Nat.sub_add_cancel (by omega)]
    exact stands
  · exact ⟨c, by simp, hchain.isKeep_of_keep⟩
  · rintro pos' lines' heq
    obtain ⟨-, rfl⟩ : _ ∧ lines.drop (lines.length - r) = lines' := by
      simpa using heq
    exact hlength.le
  · exact fun _ => ⟨_, _, rfl, hlength⟩
  · rw [List.getLast?_cons_cons, hlast]
    exact h.last
  · rw [List.getLast?_cons_cons, hlast]
    exact h.closes

/-! ### The hunks of cut blocks -/

theorem closeHunk_of_change (h : ∃ b ∈ hunk, b.isKeep = false) :
    closeHunk hunk = [hunk.reverse] := by
  rw [closeHunk.eq_def]
  split
  · simp at h
  · simp [Block.isKeep] at h
  · rfl

/-- A long kept run ends a hunk with its first lines, and the next hunk begins with its last
ones. -/
theorem Cut.windows_long (hr : 0 < r) (long : 2 * r < lines.length)
    (short : ∀ pos lines, .keep pos lines ∈ hunk → lines.length ≤ 2 * r)
    (h : Cut n r p (hunk ++ .keep pos lines :: rest) behind) {hunks : List (List (Block Line))}
    (later : Windows n r (pos.advance (lines.length - r) (lines.length - r)) hunks
      (sameLines (lines.drop (lines.length - r)) ++
        (rest.flatMap Block.tagged ++ sameLines behind))) :
    Windows n r p ((hunk ++ [.keep pos (lines.take r)]) :: hunks)
      (hunk.flatMap Block.tagged ++
        (sameLines lines ++ (rest.flatMap Block.tagged ++ sameLines behind))) := by
  obtain ⟨hidden, hlines⟩ := split_long r long
  have hhidden : hidden.length + r = lines.length - r := by
    have hlength := congrArg List.length (hlines [])
    simp only [List.length_append, List.length_take, List.length_drop, List.length_nil] at hlength
    omega
  obtain ⟨-, ⟨-, hpos⟩, -⟩ := along_append.1 h.stands
  have hplace : ((hunk ++ [Block.keep pos (lines.take r)]).foldl Block.next p).advance
      hidden.length hidden.length = pos.advance (lines.length - r) (lines.length - r) := by
    rw [List.foldl_concat, ← hpos, Block.next_keep, Position.advance_advance, ← hhidden,
      List.length_take_of_le (by omega), Nat.add_comm]
  have hshown := congrArg sameLines (hlines [])
  simp only [sameLines_append, List.append_nil] at hshown
  rw [← hplace] at later
  have hwindows := Windows.cons (h.before_long hr long hidden) ?_ ?_ later
  · simpa [← hshown] using hwindows
  · simp only [List.mem_append, List.mem_singleton]
    rintro pos' lines' (mem | heq)
    · exact short pos' lines' mem
    · obtain ⟨-, rfl⟩ := Block.keep.inj heq
      rw [List.length_take]
      omega
  · rintro -
    exact List.ne_nil_of_length_pos (by omega)

/-- The hunks of the remaining blocks are windows onto the lines of the open hunk and those
blocks. -/
theorem windows_hunksFrom (hr : 0 < r) (hunk rest : List (Block Line))
    (short : ∀ pos lines, .keep pos lines ∈ hunk → lines.length ≤ 2 * r) {p : Position}
    (h : Cut n r p (hunk.reverse ++ rest) behind) :
    Windows n r p (hunksFrom r hunk rest)
      ((hunk.reverse ++ rest).flatMap Block.tagged ++ sameLines behind) := by
  induction hunk, rest using hunksFrom.induct r generalizing p with
  | case1 hunk =>
    have hchange : ∃ b ∈ hunk, b.isKeep = false := by simpa using h.changes
    rw [List.append_nil] at h ⊢
    rw [hunksFrom, closeHunk_of_change hchange]
    simpa using Windows.cons h (by simpa using short) (by simp) (.nil _)
  | case2 hunk pos lines rest block long ih =>
    have hlater := ih (by simp [block]; omega) (h.behind_long hr long)
    rw [hunksFrom, if_pos long]
    simpa [block] using
      h.windows_long hr long (by simpa using short) (by simpa [block] using hlater)
  | case3 hunk pos lines rest block notLong ih =>
    rw [hunksFrom, if_neg notLong]
    rw [List.append_cons, ← List.reverse_cons] at h ⊢
    refine ih (fun pos' lines' mem => ?_) h
    rcases List.mem_cons.1 mem with heq | mem
    · obtain ⟨-, rfl⟩ := Block.keep.inj heq
      exact Nat.le_of_not_lt notLong
    · exact short pos' lines' mem
  | case4 hunk block rest change ih =>
    rw [hunksFrom.eq_3 _ _ _ _ change]
    rw [List.append_cons, ← List.reverse_cons] at h ⊢
    refine ih (fun pos' lines' mem => ?_) h
    rcases List.mem_cons.1 mem with heq | mem
    · exact absurd heq.symm (change pos' lines')
    · exact short pos' lines' mem

/-! ### The hunks of blocks in their places -/

@[simp] theorem Block.isKeep_firstLines (b : Block Line) : (b.firstLines r).isKeep = b.isKeep := by
  cases b <;> rfl

@[simp] theorem Block.isKeep_lastLines (b : Block Line) : (b.lastLines r).isKeep = b.isKeep := by
  cases b <;> rfl

/-- A kept run at the start is cut to its last lines. -/
theorem exists_cutAhead (hr : 0 < r) {b : Block Line} (alternates : Alternates (b :: rest))
    (stands : Along Block.next (Block.StandsAt n) ⟨0, 0⟩ (b :: rest))
    (changes : ∃ c ∈ b :: rest, c.isKeep = false) :
    ∃ front : List Line, b.tagged = sameLines front ++ (b.lastLines r).tagged ∧
      CutAhead n r ⟨front.length, front.length⟩ (b.lastLines r :: rest) := by
  cases b with
  | keep pos lines =>
    obtain ⟨⟨hne, rfl⟩, stands⟩ := stands
    have hpos : 0 < lines.length := List.length_pos_of_ne_nil hne
    have hlength : (lines.drop (lines.length - r)).length = min lines.length r := by
      rw [List.length_drop]
      omega
    have hcut : (⟨0, 0⟩ : Position).advance (lines.length - r) (lines.length - r) =
        ⟨(lines.take (lines.length - r)).length, (lines.take (lines.length - r)).length⟩ := by
      simp [Position.eq_iff]
    refine ⟨lines.take (lines.length - r), by simp [← sameLines_append],
      ⟨⟨List.ne_nil_of_length_pos (by omega), hcut⟩, ?_⟩, alternates, ?_, ?_, ?_⟩
    · rw [← hcut, Block.lastLines_keep, Block.next_keep, Position.advance_advance, hlength]
      rwa [Nat.sub_add_min_cancel]
    · simpa [Block.isKeep] using changes
    · rintro pos' lines' heq
      obtain ⟨-, rfl⟩ : _ ∧ lines.drop (lines.length - r) = lines' := by simpa using heq
      omega
    · intro hp
      have hcut : lines.length - r ≠ 0 := fun none => hp (by simp [none])
      exact ⟨_, _, rfl, by omega⟩
  | change pos deleted inserted =>
    exact ⟨[], rfl, stands, alternates, changes, by simp [Block.lastLines], (absurd rfl ·)⟩

/-- A kept run at the end is cut to its first lines. -/
theorem CutAhead.exists_cut (hr : 0 < r) {init : List (Block Line)} {b : Block Line}
    (h : CutAhead n r p (init ++ [b])) :
    ∃ behind : List Line, b.tagged = (b.firstLines r).tagged ++ sameLines behind ∧
      Cut n r p (init ++ [b.firstLines r]) behind := by
  cases b with
  | keep pos lines =>
    have hne : init ≠ [] := by
      rintro rfl
      simpa [Block.isKeep] using h.changes
    refine ⟨lines.drop r, by simp [← sameLines_append], h.upTo_keep hr hne, ?_, ?_⟩
    · rintro pos' lines' heq
      obtain ⟨-, rfl⟩ : pos = pos' ∧ lines.take r = lines' := by simpa using heq
      exact List.length_take_le r lines
    · intro hbehind
      have hlong : r < lines.length := by simpa using hbehind
      exact ⟨pos, lines.take r, by simp, List.length_take_of_le hlong.le⟩
  | change pos deleted inserted =>
    exact ⟨[], (List.append_nil _).symm, h, by simp [Block.firstLines], (absurd rfl ·)⟩

/-- Blocks without a change have no hunk: they are one kept run at most. -/
theorem hunks_of_isKeep (alternates : Alternates all) (same : ∀ b ∈ all, b.isKeep = true) :
    hunks r all = [] ∧ ∃ lines, all.flatMap Block.tagged = sameLines lines := by
  rcases all with _ | ⟨b, _ | ⟨c, rest⟩⟩
  · exact ⟨rfl, [], rfl⟩
  · cases b with
    | keep pos lines =>
      have hshort : ¬ 2 * r < min r (lines.drop (lines.length - r)).length := by omega
      refine ⟨?_, lines, by simp⟩
      simp [hunks, trimEnds, hunksFrom, closeHunk]
      omega
    | change pos deleted inserted => simp [Block.isKeep] at same
  · have hne : b.isKeep ≠ c.isKeep := (List.isChain_cons_cons.1 alternates).1
    exact absurd ((same b (by simp)).trans (same c (by simp)).symm) hne

/-- The hunks of blocks that begin at the start of both texts are windows onto the lines of the
blocks, behind some kept lines that are not shown. -/
theorem windows_hunks (hr : 0 < r) (alternates : Alternates all)
    (stands : Along Block.next (Block.StandsAt n) ⟨0, 0⟩ all) :
    ∃ (first : List Line) (shown : List Line),
      all.flatMap Block.tagged = sameLines first ++ shown ∧
      Windows n r ⟨first.length, first.length⟩ (hunks r all) shown := by
  by_cases changes : ∃ b ∈ all, b.isKeep = false
  · obtain ⟨b, rest, rfl⟩ : ∃ b rest, all = b :: rest :=
      List.exists_cons_of_ne_nil (by rintro rfl; simp at changes)
    obtain ⟨front, hfront, hahead⟩ := exists_cutAhead hr alternates stands changes
    obtain ⟨init, last, hall⟩ : ∃ init last, b.lastLines r :: rest = init ++ [last] :=
      ⟨_, _, (List.dropLast_concat_getLast (List.cons_ne_nil _ _)).symm⟩
    rw [hall] at hahead
    obtain ⟨behind, hbehind, hcut⟩ := hahead.exists_cut hr
    refine ⟨front, (init ++ [last.firstLines r]).flatMap Block.tagged ++ sameLines behind, ?_, ?_⟩
    · have hlines := congrArg (List.flatMap Block.tagged) hall
      simp only [List.flatMap_cons, List.flatMap_append, List.flatMap_nil, List.append_nil,
        hbehind] at hlines
      simp [hfront, hlines]
    · rw [hunks, trimEnds_of_eq_concat hall]
      exact windows_hunksFrom hr [] _ (by simp) hcut
  · have same : ∀ b ∈ all, b.isKeep = true := by simpa using changes
    obtain ⟨hnone, lines, hlines⟩ := hunks_of_isKeep (r := r) alternates same
    rw [hnone, hlines]
    exact ⟨lines, [], (List.append_nil _).symm, .nil _⟩

/-! ### The hunks of two texts -/

/-- The script that is displayed for two texts: the lines of its blocks behind their tags. -/
def displayed (actual expected : List Char) : List Line :=
  (blocks
    (script (Text.lines (Text.complete actual)) (Text.lines (Text.complete expected)))).flatMap
    Block.tagged

/-- Both texts are read back from the displayed script. -/
theorem untag_displayed (actual expected : List Char) :
    untag [' ', '-'] (displayed actual expected) = Text.lines (Text.complete actual) ∧
      untag [' ', '+'] (displayed actual expected) = Text.lines (Text.complete expected) := by
  rw [displayed, (untag_flatMap_tagged _).1, (untag_flatMap_tagged _).2, oldOf_blocks,
    newOf_blocks, script, oldLines_compact_steps, newLines_compact_steps]
  exact ⟨rfl, rfl⟩

/-- The hunks of two texts are windows onto the displayed script, behind some kept lines that are
not shown. -/
theorem windows_hunksOf (actual expected : List Char) :
    ∃ (first : List Line) (shown : List Line),
      displayed actual expected = sameLines first ++ shown ∧
      Windows (Text.lines (Text.complete expected)).length contextRadius
        ⟨first.length, first.length⟩ (hunksOf actual expected) shown :=
  windows_hunks (by decide) (alternates_blocks _)
    (along_blocks ((along_compact_steps _ _).and (insertsBehind_compact_steps _ _)))

end Touchstone.Diff
