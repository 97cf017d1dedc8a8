import Touchstone.Proofs.Diff.Windows

/-!
# The lines around a change

A diff shows every changed line with the lines near it, and no others.  The displayed script is the
list of all lines of both texts in order, each behind its tag; a hunk is a part of it.  A line is in
a hunk exactly if a changed line is at most three lines away, and two changed lines without another
one between them share a hunk exactly if at most six lines stand between them.

## Main definitions

* `Touchstone.Diff.Changed` : a line of one text only.
* `Touchstone.Diff.Context` : parts of a list that show the lines near the changed ones.

## Main results

* `Touchstone.Diff.context_unified` : the hunks of a diff show the lines near the changed ones.
-/

namespace Touchstone.Diff

variable {n r i j : Nat} {p : Position} {gap body all : List Line} {hunk : List (Block Line)}

/-! ### Changed lines -/

/-- A line of a list of tagged lines stands in one text only. -/
def Changed (all : List Line) (i : Nat) : Prop :=
  ∃ line, all[i]? = some line ∧ (line.head? = some '-' ∨ line.head? = some '+')

theorem Changed.lt_length (h : Changed all i) : i < all.length := by
  obtain ⟨line, hline, -⟩ := h
  exact (List.getElem?_eq_some_iff.1 hline).1

theorem changed_append_of_lt (h : i < body.length) (all : List Line) :
    Changed (body ++ all) i ↔ Changed body i := by
  rw [Changed, List.getElem?_append_left h, Changed]

@[simp] theorem changed_append_add (body all : List Line) (i : Nat) :
    Changed (body ++ all) (body.length + i) ↔ Changed all i := by
  rw [Changed, List.getElem?_append_right (Nat.le_add_right _ _), Nat.add_sub_cancel_left, Changed]

/-- A changed line is on one side or on the other. -/
theorem changed_append_iff (body all : List Line) (i : Nat) :
    Changed (body ++ all) i ↔ Changed body i ∨ ∃ k, i = body.length + k ∧ Changed all k := by
  constructor
  · intro h
    by_cases hi : i < body.length
    · exact .inl ((changed_append_of_lt hi all).1 h)
    · obtain ⟨k, rfl⟩ := Nat.exists_eq_add_of_le (Nat.le_of_not_lt hi)
      exact .inr ⟨k, rfl, (changed_append_add body all k).1 h⟩
  · rintro (h | ⟨k, rfl, h⟩)
    · exact (changed_append_of_lt h.lt_length all).2 h
    · exact (changed_append_add body all k).2 h

@[simp] theorem not_changed_sameLines (lines : List Line) (i : Nat) :
    ¬ Changed (sameLines lines) i := by
  rintro ⟨line, hline, htag⟩
  obtain ⟨kept, -, rfl⟩ := List.mem_map.1 (List.mem_of_getElem? hline)
  simp at htag

/-- All lines of a change are changed. -/
theorem Block.changed_of_isKeep {b : Block Line} (h : b.isKeep = false)
    (hi : i < b.tagged.length) : Changed b.tagged i := by
  have htags : ∀ line ∈ b.tagged, line.head? = some '-' ∨ line.head? = some '+' := by
    cases b with
    | keep pos lines => simp [Block.isKeep] at h
    | change pos deleted inserted =>
      simp only [tagged_change, List.mem_append, List.mem_map]
      rintro _ (⟨line, -, rfl⟩ | ⟨line, -, rfl⟩)
      · exact .inl rfl
      · exact .inr rfl
  exact ⟨_, List.getElem?_eq_getElem hi, htags _ (List.getElem_mem hi)⟩

/-! ### The lines of a hunk -/

/-- A block in its place has lines. -/
theorem Block.StandsAt.length_pos {b : Block Line} (h : b.StandsAt n p) : 0 < b.tagged.length := by
  cases b with
  | keep pos lines => simpa using List.length_pos_of_ne_nil h.1
  | change pos deleted inserted =>
    rcases h.1 with ne | ne
    · simp [List.length_pos_of_ne_nil ne]
    · simp [List.length_pos_of_ne_nil ne]

/-- Every line stands in a block. -/
theorem exists_block_at {hunk : List (Block Line)} {i : Nat}
    (hi : i < (hunk.flatMap Block.tagged).length) :
    ∃ pre b post k, hunk = pre ++ b :: post ∧ k < b.tagged.length ∧
      i = (pre.flatMap Block.tagged).length + k := by
  induction hunk generalizing i with
  | nil => simp at hi
  | cons b hunk ih =>
    by_cases hb : i < b.tagged.length
    · exact ⟨[], b, hunk, i, rfl, hb, (Nat.zero_add i).symm⟩
    · rw [List.flatMap_cons, List.length_append] at hi
      obtain ⟨pre, c, post, k, rfl, hk, heq⟩ :=
        ih (Nat.sub_lt_left_of_lt_add (Nat.le_of_not_lt hb) hi)
      refine ⟨b :: pre, c, post, k, rfl, hk, ?_⟩
      rw [List.flatMap_cons, List.length_append]
      omega

section Cut

variable (cut : Cut n r p hunk gap)

include cut

/-- Lines without a change between them are lines of one kept run. -/
theorem Cut.exists_keep (hij : i < j) (hj : j ≤ (hunk.flatMap Block.tagged).length)
    (kept : ∀ k, i ≤ k → k < j → ¬ Changed (hunk.flatMap Block.tagged) k) :
    ∃ pre pos lines post, hunk = pre ++ .keep pos lines :: post ∧
      (pre.flatMap Block.tagged).length ≤ i ∧
      j ≤ (pre.flatMap Block.tagged).length + lines.length := by
  obtain ⟨pre, b, post, k, rfl, hk, rfl⟩ := exists_block_at (Nat.lt_of_lt_of_le hij hj)
  obtain ⟨-, hb, hpost⟩ := along_append.1 cut.stands
  rw [List.flatMap_append, List.flatMap_cons] at kept hj
  cases b with
  | keep pos lines =>
    refine ⟨pre, pos, lines, post, rfl, Nat.le_add_right _ _, ?_⟩
    rw [Block.tagged_keep] at kept hj hk
    rw [length_sameLines] at hk
    by_contra beyond
    cases post with
    | nil =>
      simp only [List.length_append, length_sameLines, List.flatMap_nil, List.length_nil] at hj
      omega
    | cons c post =>
      have hchanged : Changed (c.tagged ++ post.flatMap Block.tagged) 0 :=
        (changed_append_of_lt hpost.1.length_pos _).2
          (Block.changed_of_isKeep cut.alternates.of_append.2.isKeep_of_keep hpost.1.length_pos)
      refine kept ((pre.flatMap Block.tagged).length + ((sameLines lines).length + 0)) ?_ ?_ ?_
      · rw [length_sameLines]
        omega
      · rw [length_sameLines]
        omega
      · rwa [changed_append_add, changed_append_add]
  | change pos deleted inserted =>
    refine absurd ?_ (kept _ (Nat.le_refl _) hij)
    rw [changed_append_add, changed_append_of_lt hk]
    exact Block.changed_of_isKeep rfl hk

/-- Lines without a change between them are few. -/
theorem Cut.length_kept (short : ∀ pos lines, .keep pos lines ∈ hunk → lines.length ≤ 2 * r)
    (hij : i < j) (hj : j ≤ (hunk.flatMap Block.tagged).length)
    (kept : ∀ k, i ≤ k → k < j → ¬ Changed (hunk.flatMap Block.tagged) k) :
    j - i ≤ 2 * r ∧ (i = 0 → j ≤ r) ∧
      (j = (hunk.flatMap Block.tagged).length → j - i ≤ r) := by
  obtain ⟨pre, pos, lines, post, rfl, hi, hle⟩ := cut.exists_keep hij hj kept
  refine ⟨?_, ?_, ?_⟩
  · have := short pos lines (by simp)
    omega
  · rintro rfl
    cases pre with
    | nil =>
      have := cut.first pos lines rfl
      simp only [List.flatMap_nil, List.length_nil] at hle
      omega
    | cons b pre =>
      have := cut.stands.1.length_pos
      rw [List.flatMap_cons, List.length_append] at hi
      omega
  · intro hend
    cases post with
    | nil =>
      have := cut.last pos lines (by simp)
      omega
    | cons c post =>
      have := (along_append.1 cut.stands).2.2.1.length_pos
      simp only [List.flatMap_append, List.flatMap_cons, List.length_append, Block.tagged_keep,
        length_sameLines] at hend
      omega

/-- A hunk has a changed line. -/
theorem Cut.exists_changed : ∃ i, Changed (hunk.flatMap Block.tagged) i := by
  obtain ⟨b, mem, hb⟩ := cut.changes
  obtain ⟨pre, post, rfl⟩ := List.append_of_mem mem
  have hpos := (along_append.1 cut.stands).2.1.length_pos
  refine ⟨(pre.flatMap Block.tagged).length + 0, ?_⟩
  rw [List.flatMap_append, List.flatMap_cons, changed_append_add, changed_append_of_lt hpos]
  exact Block.changed_of_isKeep hb hpos

/-- Every line of a hunk is near a changed one. -/
theorem Cut.exists_near (short : ∀ pos lines, .keep pos lines ∈ hunk → lines.length ≤ 2 * r)
    (hi : i < (hunk.flatMap Block.tagged).length) :
    ∃ j, Changed (hunk.flatMap Block.tagged) j ∧ i ≤ j + r ∧ j ≤ i + r := by
  by_contra far
  simp only [not_exists, not_and] at far
  obtain ⟨k, hk⟩ := cut.exists_changed
  have hklt := hk.lt_length
  have hkfar := far k hk
  obtain ⟨hinner, hfirst, hlast⟩ := cut.length_kept (i := i - r)
    (j := min (i + r + 1) (hunk.flatMap Block.tagged).length) short (by omega) (by omega)
    fun k hle hlt hchanged => far k hchanged (by omega) (by omega)
  omega

/-- Before hidden lines, a hunk ends with kept lines. -/
theorem Cut.changed_lt (hgap : gap ≠ []) (h : Changed (hunk.flatMap Block.tagged) i) :
    i + r < (hunk.flatMap Block.tagged).length := by
  obtain ⟨pos, lines, hlast, hlength⟩ := cut.closes hgap
  obtain ⟨init, rfl⟩ := List.getLast?_eq_some_iff.1 hlast
  rw [List.flatMap_append, List.flatMap_singleton, Block.tagged_keep] at h ⊢
  rw [List.length_append, length_sameLines, hlength]
  rcases (changed_append_iff _ _ i).1 h with hinit | ⟨k, -, hkept⟩
  · exact Nat.add_lt_add_right hinit.lt_length r
  · exact absurd hkept (not_changed_sameLines lines k)

/-- Behind other lines, a hunk begins with kept lines. -/
theorem Cut.le_changed (hp : p ≠ ⟨0, 0⟩) (h : Changed (hunk.flatMap Block.tagged) i) : r ≤ i := by
  obtain ⟨pos, lines, hfirst, hlength⟩ := cut.opens hp
  obtain ⟨rest, rfl⟩ := List.head?_eq_some_iff.1 hfirst
  rw [List.flatMap_cons, Block.tagged_keep] at h
  rcases (changed_append_iff _ _ i).1 h with hkept | ⟨k, rfl, -⟩
  · exact absurd hkept (not_changed_sameLines lines i)
  · rw [length_sameLines, hlength]
    exact Nat.le_add_right r k

end Cut

/-! ### The lines that are shown -/

/-- A part of a list, with the number of lines in front of it, holds a line. -/
def Holds (w : Nat × HunkText) (i : Nat) : Prop := w.1 ≤ i ∧ i < w.1 + w.2.body.length

/-- Parts of a list of tagged lines show the lines near the changed ones: at most `r` lines stand
between, and at most `2 * r` between two changed lines of one part.  The parts are given with the
number of lines in front of them. -/
structure Context (r : Nat) (all : List Line) (read : List (Nat × HunkText)) : Prop where
  /-- The parts are parts of the list. -/
  part : ∀ w ∈ read, w.2.body <+: all.drop w.1
  /-- They stand in order, and no line is in two of them. -/
  apart : read.Pairwise fun w w' => w.1 + w.2.body.length ≤ w'.1
  /-- Each of them has a changed line. -/
  changes : ∀ w ∈ read, ∃ i, Holds w i ∧ Changed all i
  /-- A line is in a part exactly if a changed line is at most `r` lines away. -/
  near : ∀ i < all.length,
    (∃ w ∈ read, Holds w i) ↔ ∃ j, Changed all j ∧ i ≤ j + r ∧ j ≤ i + r
  /-- Two changed lines without another one between them are in one part exactly if at most `2 * r`
  lines stand between them. -/
  together : ∀ i j, i < j → Changed all i → Changed all j →
    (∀ k, i < k → k < j → ¬ Changed all k) →
    ((∃ w ∈ read, Holds w i ∧ Holds w j) ↔ j - i - 1 ≤ 2 * r)

/-- A part of a list behind other lines. -/
def behind (x : Nat) (w : Nat × HunkText) : Nat × HunkText := (x + w.1, w.2)

theorem holds_behind_add {x : Nat} {w : Nat × HunkText} :
    Holds (behind x w) (x + i) ↔ Holds w i := by
  simp only [Holds, behind]
  omega

theorem le_of_holds_behind {x : Nat} {w : Nat × HunkText} (h : Holds (behind x w) i) : x ≤ i :=
  Nat.le_trans (Nat.le_add_right x w.1) h.1

section

variable {x : Nat} {own read : List (Nat × HunkText)}

/-- A line in front is in no part of the lines behind. -/
theorem exists_holds_of_lt (hi : i < x) :
    (∃ w ∈ own ++ read.map (behind x), Holds w i ∧ Holds w j) ↔
      ∃ w ∈ own, Holds w i ∧ Holds w j := by
  constructor
  · rintro ⟨w, mem, hw⟩
    rcases List.mem_append.1 mem with mem | mem
    · exact ⟨w, mem, hw⟩
    · obtain ⟨w, -, rfl⟩ := List.mem_map.1 mem
      exact absurd (le_of_holds_behind hw.1) (Nat.not_le_of_lt hi)
  · rintro ⟨w, mem, hw⟩
    exact ⟨w, List.mem_append_left _ mem, hw⟩

/-- A line behind is in the parts of the lines behind. -/
theorem exists_holds_add (hown : ∀ w ∈ own, ¬ Holds w (x + i)) :
    (∃ w ∈ own ++ read.map (behind x), Holds w (x + i) ∧ Holds w (x + j)) ↔
      ∃ w ∈ read, Holds w i ∧ Holds w j := by
  constructor
  · rintro ⟨w, mem, hw⟩
    rcases List.mem_append.1 mem with mem | mem
    · exact absurd hw.1 (hown w mem)
    · obtain ⟨u, hu, rfl⟩ := List.mem_map.1 mem
      exact ⟨u, hu, holds_behind_add.1 hw.1, holds_behind_add.1 hw.2⟩
  · rintro ⟨w, mem, hw⟩
    exact ⟨behind x w, List.mem_append_right _ (List.mem_map_of_mem mem),
      holds_behind_add.2 hw.1, holds_behind_add.2 hw.2⟩

end

namespace Context

variable {front all : List Line} {own read : List (Nat × HunkText)}

/-- No part reaches beyond the list. -/
theorem end_le (h : Context r all read) {w : Nat × HunkText} (mem : w ∈ read) :
    w.1 + w.2.body.length ≤ all.length := by
  obtain ⟨i, ⟨hle, hlt⟩, hchanged⟩ := h.changes w mem
  have hpart := (h.part w mem).length_le
  have hi := hchanged.lt_length
  rw [List.length_drop] at hpart
  omega

section Append

variable (hfront : Context r front own)

include hfront

/-- A line behind is in no part of the lines in front. -/
theorem not_holds_add (i : Nat) : ∀ w ∈ own, ¬ Holds w (front.length + i) := by
  intro w mem hw
  have := hfront.end_le mem
  exact absurd hw.2 (by omega)

/-- A line in front is shown exactly if a changed line is near. -/
theorem near_of_lt (hi : i < front.length)
    (after : ∀ j, Changed all j → front.length + j ≤ i + r → ∃ w ∈ own, Holds w i) :
    (∃ w ∈ own ++ read.map (behind front.length), Holds w i) ↔
      ∃ j, Changed (front ++ all) j ∧ i ≤ j + r ∧ j ≤ i + r := by
  have hholds : (∃ w ∈ own ++ read.map (behind front.length), Holds w i) ↔
      ∃ w ∈ own, Holds w i := by
    simpa only [and_self] using exists_holds_of_lt (j := i) hi
  rw [hholds]
  constructor
  · intro hshown
    obtain ⟨j, hj, hnear⟩ := (hfront.near i hi).1 hshown
    exact ⟨j, (changed_append_iff _ _ j).2 (.inl hj), hnear⟩
  · rintro ⟨j, hj, hnear⟩
    rcases (changed_append_iff _ _ j).1 hj with hj | ⟨k, rfl, hk⟩
    · exact (hfront.near i hi).2 ⟨j, hj, hnear⟩
    · exact after k hk hnear.2

variable (hall : Context r all read)

include hall

/-- A line behind is shown exactly if a changed line is near. -/
theorem near_add (hi : i < all.length) (ahead : ∀ j, Changed front j → j + r < front.length) :
    (∃ w ∈ own ++ read.map (behind front.length), Holds w (front.length + i)) ↔
      ∃ j, Changed (front ++ all) j ∧ front.length + i ≤ j + r ∧ j ≤ front.length + i + r := by
  have hholds : (∃ w ∈ own ++ read.map (behind front.length), Holds w (front.length + i)) ↔
      ∃ w ∈ read, Holds w i := by
    simpa only [and_self] using exists_holds_add (j := i) (hfront.not_holds_add i)
  rw [hholds]
  constructor
  · intro hshown
    obtain ⟨j, hj, hnear⟩ := (hall.near i hi).1 hshown
    exact ⟨front.length + j, (changed_append_add _ _ j).2 hj, by omega, by omega⟩
  · rintro ⟨j, hj, hnear⟩
    rcases (changed_append_iff _ _ j).1 hj with hj | ⟨k, rfl, hk⟩
    · have := ahead j hj
      omega
    · exact (hall.near i hi).2 ⟨k, hk, by omega, by omega⟩

/-- Two changed lines on one side share a part as before, and two on different sides do not. -/
theorem together_append
    (far : ∀ i j, Changed front i → Changed all j → 2 * r < front.length + j - i - 1)
    (hij : i < j) (hi : Changed (front ++ all) i) (hj : Changed (front ++ all) j)
    (between : ∀ k, i < k → k < j → ¬ Changed (front ++ all) k) :
    (∃ w ∈ own ++ read.map (behind front.length), Holds w i ∧ Holds w j) ↔ j - i - 1 ≤ 2 * r := by
  rcases (changed_append_iff _ _ i).1 hi with hfi | ⟨i, rfl, hai⟩
  · rw [exists_holds_of_lt hfi.lt_length]
    rcases (changed_append_iff _ _ j).1 hj with hfj | ⟨j, rfl, haj⟩
    · refine hfront.together i j hij hfi hfj fun k hik hkj hk => ?_
      exact between k hik hkj ((changed_append_iff _ _ k).2 (.inl hk))
    · refine iff_of_false ?_ (Nat.not_le_of_lt (far i j hfi haj))
      rintro ⟨w, mem, -, hw⟩
      exact hfront.not_holds_add j w mem hw
  · obtain ⟨j, rfl⟩ := Nat.exists_eq_add_of_le (Nat.le_trans (Nat.le_add_right _ i) hij.le)
    rw [exists_holds_add (hfront.not_holds_add i), Nat.add_sub_add_left]
    refine hall.together i j (Nat.lt_of_add_lt_add_left hij) hai
      ((changed_append_add _ _ j).1 hj) fun k hik hkj hk => ?_
    exact between (front.length + k) (Nat.add_lt_add_left hik _) (Nat.add_lt_add_left hkj _)
      ((changed_append_add _ _ k).2 hk)

/-- Lines in front, and others behind.  No line behind is near a changed line in front, the lines in
front that are near a changed line behind are shown, and no changed lines on the two sides are
near. -/
theorem append (ahead : ∀ i, Changed front i → all ≠ [] → i + r < front.length)
    (after : ∀ i j, i < front.length → Changed all j → front.length + j ≤ i + r →
      ∃ w ∈ own, Holds w i)
    (far : ∀ i j, Changed front i → Changed all j → 2 * r < front.length + j - i - 1) :
    Context r (front ++ all) (own ++ read.map (behind front.length)) := by
  refine ⟨?_, ?_, ?_, fun i hi => ?_, fun i j => hfront.together_append hall far⟩
  · intro w mem
    rcases List.mem_append.1 mem with mem | mem
    · have hle : w.1 ≤ front.length :=
        Nat.le_trans (Nat.le_add_right _ _) (hfront.end_le mem)
      rw [List.drop_append_of_le_length hle]
      exact (hfront.part w mem).trans (List.prefix_append _ _)
    · obtain ⟨u, hu, rfl⟩ := List.mem_map.1 mem
      simpa only [behind, List.drop_length_add_append] using hall.part u hu
  · refine List.pairwise_append.2 ⟨hfront.apart, ?_, fun w mem w' mem' => ?_⟩
    · rw [List.pairwise_map]
      exact hall.apart.imp fun h => by simpa only [behind, Nat.add_assoc, Nat.add_le_add_iff_left]
    · obtain ⟨u, -, rfl⟩ := List.mem_map.1 mem'
      exact Nat.le_trans (hfront.end_le mem) (Nat.le_add_right _ _)
  · intro w mem
    rcases List.mem_append.1 mem with mem | mem
    · obtain ⟨i, hi, hchanged⟩ := hfront.changes w mem
      exact ⟨i, hi, (changed_append_iff _ _ i).2 (.inl hchanged)⟩
    · obtain ⟨u, hu, rfl⟩ := List.mem_map.1 mem
      obtain ⟨i, hi, hchanged⟩ := hall.changes u hu
      exact ⟨_, holds_behind_add.2 hi, (changed_append_add _ _ i).2 hchanged⟩
  · by_cases hlt : i < front.length
    · exact hfront.near_of_lt hlt fun j => after i j hlt
    · obtain ⟨k, rfl⟩ := Nat.exists_eq_add_of_le (Nat.le_of_not_lt hlt)
      have hk : k < all.length := by simpa using hi
      exact hfront.near_add hall hk fun j hj =>
        ahead j hj (List.ne_nil_of_length_pos (Nat.zero_lt_of_lt hk))

end Append

end Context

/-! ### The parts that the hunks show -/

/-- No part is shown of lines without a change. -/
theorem context_sameLines (lines : List Line) : Context r (sameLines lines) [] :=
  ⟨by simp, .nil, by simp, by simp, by simp⟩

/-- Kept lines are not shown in front of lines of which the first ones are kept. -/
theorem Context.sameLines_append {read : List (Nat × HunkText)} (h : Context r all read)
    (lines : List Line) (far : lines ≠ [] → ∀ j, Changed all j → r ≤ j) :
    Context r (sameLines lines ++ all) (read.map (behind lines.length)) := by
  rw [← length_sameLines lines]
  refine (context_sameLines lines).append h (fun i hi => absurd hi (not_changed_sameLines _ i))
    (fun i j hi hj hle => ?_) fun i j hi => absurd hi (not_changed_sameLines _ i)
  rw [length_sameLines] at hi hle
  have := far (List.ne_nil_of_length_pos (Nat.zero_lt_of_lt hi)) j hj
  omega

/-- A hunk is one part that shows all its lines. -/
theorem Cut.context {h : HunkText} (cut : Cut n r p hunk gap)
    (short : ∀ pos lines, .keep pos lines ∈ hunk → lines.length ≤ 2 * r) (shows : h.Shows hunk) :
    Context r (hunk.flatMap Block.tagged) [(0, h)] := by
  have holds : ∀ i, Holds (0, h) i ↔ i < (hunk.flatMap Block.tagged).length := by
    simp [Holds, shows.body]
  refine ⟨by simp [shows.body], by simp, ?_, fun i hi => ?_, ?_⟩
  · obtain ⟨i, hi⟩ := cut.exists_changed
    exact List.forall_mem_singleton.2 ⟨i, (holds i).2 hi.lt_length, hi⟩
  · exact iff_of_true ⟨_, List.mem_singleton_self _, (holds i).2 hi⟩ (cut.exists_near short hi)
  · intro i j hij hi hj between
    refine iff_of_true ⟨_, List.mem_singleton_self _, (holds i).2 hi.lt_length,
      (holds j).2 hj.lt_length⟩ ?_
    by_cases hnext : i + 1 < j
    · have hlength := (cut.length_kept short hnext hj.lt_length.le between).1
      omega
    · omega

/-- Windows show the lines near the changed ones. -/
theorem Windows.exists_context {hunks : List (List (Block Line))} {texts : List HunkText}
    (h : Windows n r p hunks all) (hshows : List.Forall₂ (fun hunk h => h.Shows hunk) hunks texts) :
    (p ≠ ⟨0, 0⟩ → ∀ i, Changed all i → r ≤ i) ∧
      ∃ read, read.map Prod.snd = texts ∧ Context r all read := by
  induction h generalizing texts with
  | nil p =>
    cases hshows
    exact ⟨fun _ i h => absurd h (not_changed_sameLines [] i), [], rfl, context_sameLines []⟩
  | @cons p hunk gap hunks all cut short apart later ih =>
    obtain _ | ⟨shows, hshows⟩ := hshows
    rename_i h texts
    obtain ⟨hfirst, read, rfl, hread⟩ := ih hshows
    have hlast : gap = [] → all = [] := fun hgap => by
      obtain rfl : hunks = [] := not_imp_not.1 apart hgap
      cases later
      rfl
    have hbehind : ∀ j, Changed all j → 0 < gap.length ∧ r ≤ j := fun j hj => by
      have hgap : 0 < gap.length := List.length_pos_of_ne_nil fun hgap => by
        rw [hlast hgap] at hj
        exact not_changed_sameLines [] j hj
      refine ⟨hgap, hfirst (fun hzero => ?_) j hj⟩
      have := congrArg Position.old hzero
      simp only [Position.advance_old] at this
      omega
    have hgapAll := hread.sameLines_append gap fun _ j hj => (hbehind j hj).2
    refine ⟨fun hp i hi => ?_, _, ?_, (cut.context short shows).append hgapAll ?_ ?_ ?_⟩
    · obtain ⟨k, hk⟩ := cut.exists_changed
      have hle := cut.le_changed hp hk
      have hlt := hk.lt_length
      rcases (changed_append_iff _ _ i).1 hi with hi | ⟨j, rfl, -⟩
      · exact cut.le_changed hp hi
      · omega
    · simp [behind, Function.comp_def]
    · intro i hi hne
      refine cut.changed_lt (fun hgap => hne ?_) hi
      rw [hgap, hlast hgap]
      rfl
    · intro i j hi hj hle
      exact ⟨_, List.mem_singleton_self _, by simpa [Holds, shows.body] using hi⟩
    · intro i j hi hj
      rcases (changed_append_iff _ _ j).1 hj with hkept | ⟨k, rfl, hk⟩
      · exact absurd hkept (not_changed_sameLines gap j)
      · obtain ⟨hgap, hle⟩ := hbehind k hk
        have hlt := cut.changed_lt (List.ne_nil_of_length_pos hgap) hi
        rw [length_sameLines]
        omega

/-! ### The lines of a diff -/

/-- Both texts are read back from the displayed script, and the hunks of the diff are parts of it.
They show its lines that are at most three lines away from a changed one, two changed lines share a
hunk exactly if at most six lines stand between them, and no line is in two hunks. -/
theorem context_unified (actual expected : List Char) :
    untag [' ', '-'] (displayed actual expected) = Text.lines (Text.complete actual) ∧
    untag [' ', '+'] (displayed actual expected) = Text.lines (Text.complete expected) ∧
    ∃ read : List (Nat × HunkText),
      Text.lines (unified actual expected).toList = diffLines (read.map Prod.snd) ∧
      Context 3 (displayed actual expected) read := by
  obtain ⟨hold, hnew⟩ := untag_displayed actual expected
  obtain ⟨-, texts, hshows, hlines, -, -⟩ := exists_reading_hunks actual expected
  obtain ⟨first, shown, hdisplayed, hwindows⟩ := windows_hunksOf actual expected
  obtain ⟨hfirst, read, hread, hcontext⟩ := hwindows.exists_context hshows
  refine ⟨hold, hnew, read.map (behind first.length), ?_, ?_⟩
  · rw [hlines, ← hread, List.map_map]
    rfl
  · rw [hdisplayed]
    refine hcontext.sameLines_append first fun hne => hfirst fun hzero => hne ?_
    exact List.length_eq_zero_iff.1 (congrArg Position.old hzero)

end Touchstone.Diff
