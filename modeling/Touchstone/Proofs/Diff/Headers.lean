import Touchstone.Proofs.Diff.Windows

/-!
# What the headers of a diff tell

The header of a hunk tells two ranges, where the hunk stands in both texts.  They are made from the
positions of its first and its last block.  These are right where the block has lines, but a change
that only inserts has no old line, and a change that only deletes has no new line: there the
position is left from before the steps were slid together, and it may be wrong.

Such a change is at the end of a hunk only at the start or at the end of the texts, where no kept
lines stand around it.  All other headers tell the truth.  The old range always begins where the
hunk begins, and no range is longer than it should be.

## Main definitions

* `Touchstone.Diff.Range` : lines of a text as a header tells them.
* `Touchstone.Diff.HunkText.Headed` : how far the header of a hunk tells where the hunk stands.

## Main results

* `Touchstone.Diff.headers_tell` : what the headers of a diff tell.
* `Touchstone.Diff.header_misleads` : a header that tells too few lines.
-/

namespace Touchstone.Diff

/-! ### Ranges -/

/-- Lines of a text as a header tells them: how many stand in front of them, and how many they
are. -/
structure Range where
  /-- The number of lines in front. -/
  before : Nat
  /-- The number of lines. -/
  length : Nat
  deriving DecidableEq, Repr

/-- A range in a header: the number of its first line, or of the line before if there is none, and
its length unless it is one. -/
def Range.text (r : Range) : String :=
  if r.length = 0 then s!"{r.before},0"
  else if r.length = 1 then s!"{r.before + 1}"
  else s!"{r.before + 1},{r.length}"

theorem stretch_eq_text (first last : Nat) :
    stretch first last = (Range.mk first (last - first)).text := by
  rw [stretch, Range.text]
  split <;> simp_all

/-- The lines of a hunk begin with changed lines that all have one tag. -/
def BeginsIn (tag : Char) (body : List Line) : Prop :=
  ∃ run post, body = run ++ post ∧ run ≠ [] ∧ (∀ line ∈ run, line.head? = some tag) ∧
    ∀ line ∈ post.head?, line.head? = some ' '

/-- The lines of a hunk end with changed lines that all have one tag. -/
def EndsIn (tag : Char) (body : List Line) : Prop :=
  ∃ pre run, body = pre ++ run ∧ run ≠ [] ∧ (∀ line ∈ run, line.head? = some tag) ∧
    ∀ line ∈ pre.getLast?, line.head? = some ' '

/-- The header of a hunk tells two ranges. -/
def HunkText.Tells (h : HunkText) (old new : Range) : Prop :=
  h.header = ("@@ -" ++ old.text ++ " +" ++ new.text ++ " @@\n").toList

/-- What the header of a hunk tells, if `p` is the position where the hunk begins and `ends` says
that no line of the texts stands behind it.

The old range begins where the hunk begins.  It is as long as the old lines of the hunk, and may be
shorter only if the hunk ends the texts and its last change is an insertion.  The new range begins
where the hunk begins, or later if the hunk begins the texts and its first change is a deletion.  It
is as long as the new lines of the hunk, and may be shorter only in that case or if the hunk ends
the texts and its last change is a deletion. -/
structure HunkText.Headed (h : HunkText) (p : Position) (ends : Prop) (old new : Range) : Prop where
  tells : h.Tells old new
  old_before : old.before = p.old
  old_length_le : old.length ≤ h.old.length
  old_length : ¬ (ends ∧ EndsIn '+' h.body) → old.length = h.old.length
  le_new_before : p.new ≤ new.before
  new_before : ¬ (p = ⟨0, 0⟩ ∧ BeginsIn '-' h.body) → new.before = p.new
  new_length_le : new.length ≤ h.new.length
  new_length : ¬ (p = ⟨0, 0⟩ ∧ BeginsIn '-' h.body) → ¬ (ends ∧ EndsIn '-' h.body) →
    new.length = h.new.length

/-! ### Changes at the ends of a hunk -/

variable {n r : Nat} {p pos : Position} {gap : List Line} {hunk rest init : List (Block Line)}
  {b : Block Line}

theorem head?_of_mem_map {tag : Char} {lines : List Line} :
    ∀ line ∈ lines.map (tag :: ·), line.head? = some tag := by
  simp

/-- A kept run in its place has a first and a last line, and both are lines of both texts. -/
theorem Block.ends_of_isKeep (h : b.StandsAt n p) (keeps : b.isKeep = true) :
    (∃ line, b.tagged.head? = some line ∧ line.head? = some ' ') ∧
      ∃ line, b.tagged.getLast? = some line ∧ line.head? = some ' ' := by
  cases b with
  | keep pos lines =>
    have hne : sameLines lines ≠ [] := by simpa [sameLines] using h.1
    obtain ⟨first, hfirst⟩ := Option.isSome_iff_exists.1 (List.isSome_head?.2 hne)
    obtain ⟨last, hlast⟩ := Option.isSome_iff_exists.1 (List.getLast?_isSome.2 hne)
    refine ⟨⟨first, by simpa using hfirst, ?_⟩, ⟨last, by simpa using hlast, ?_⟩⟩
    · exact head?_of_mem_map first (List.mem_of_head? hfirst)
    · exact head?_of_mem_map last (List.mem_of_getLast? hlast)
  | change pos deleted inserted => simp [Block.isKeep] at keeps

theorem beginsIn_cons {tag : Char} {lines : List Line} (alternates : Alternates (b :: rest))
    (stands : Along Block.next (Block.StandsAt n) p (b :: rest)) (change : b.isKeep = false)
    (hb : b.tagged = lines.map (tag :: ·)) (ne : lines ≠ []) :
    BeginsIn tag ((b :: rest).flatMap Block.tagged) := by
  refine ⟨b.tagged, rest.flatMap Block.tagged, rfl, by simp [hb, ne], hb ▸ head?_of_mem_map, ?_⟩
  cases rest with
  | nil => simp
  | cons c rest =>
    have hc : c.isKeep = true := by
      simpa [change] using (List.isChain_cons_cons.1 alternates).1
    obtain ⟨⟨line, hline, htag⟩, -⟩ := Block.ends_of_isKeep stands.2.1 hc
    simpa [List.head?_append, hline] using htag

theorem endsIn_concat {tag : Char} {lines : List Line} (alternates : Alternates (init ++ [b]))
    (stands : Along Block.next (Block.StandsAt n) p (init ++ [b])) (change : b.isKeep = false)
    (hb : b.tagged = lines.map (tag :: ·)) (ne : lines ≠ []) :
    EndsIn tag ((init ++ [b]).flatMap Block.tagged) := by
  refine ⟨init.flatMap Block.tagged, b.tagged, by simp, by simp [hb, ne],
    hb ▸ head?_of_mem_map, ?_⟩
  rcases List.eq_nil_or_concat' init with rfl | ⟨init, c, rfl⟩
  · simp
  · have hc : c.isKeep = true := by
      rw [List.append_assoc] at alternates
      simpa [change] using (List.isChain_cons_cons.1 alternates.of_append.2).1
    have hstands := (along_concat.1 (along_concat.1 stands).1).2
    obtain ⟨-, line, hline, htag⟩ := Block.ends_of_isKeep hstands hc
    simpa [List.getLast?_append, hline] using htag

/-! ### The ranges of a hunk -/

/-- The first block of a hunk tells the first old line of the hunk, and its first new line unless it
is a deletion at the start of the texts. -/
theorem Cut.first_pos (cut : Cut n r p (b :: rest) gap) :
    b.pos.old = p.old ∧ p.new ≤ b.pos.new ∧
      (b.pos.new = p.new ∨ p = ⟨0, 0⟩ ∧ BeginsIn '-' ((b :: rest).flatMap Block.tagged)) := by
  have hstands := cut.stands.1
  cases b with
  | keep pos lines =>
    obtain ⟨-, rfl⟩ := hstands
    exact ⟨rfl, Nat.le_refl _, .inl rfl⟩
  | change pos deleted inserted =>
    obtain ⟨filled, hold, -, -, hnew⟩ := hstands
    have hp : p = ⟨0, 0⟩ := by
      by_contra hp
      simpa using cut.opens hp
    subst hp
    refine ⟨Nat.le_zero.1 hold, Nat.zero_le _, ?_⟩
    by_cases none : inserted = []
    · subst none
      have ne : deleted ≠ [] := by simpa using filled
      exact .inr ⟨rfl, beginsIn_cons cut.alternates cut.stands rfl (by simp) ne⟩
    · exact .inl (hnew none)

/-- The last block of a hunk tells the last lines of the hunk, unless it is a change at the end of
the texts that has no line in one of them. -/
theorem Cut.last_pos (cut : Cut n r p (init ++ [b]) gap)
    (total : gap = [] → n = p.new + (newOf (init ++ [b])).length) :
    (b.pos.old + b.old.length = p.old + (oldOf (init ++ [b])).length ∨
      b.pos.old + b.old.length ≤ p.old + (oldOf (init ++ [b])).length ∧ gap = [] ∧
        EndsIn '+' ((init ++ [b]).flatMap Block.tagged)) ∧
    (b.pos.new + b.new.length = p.new + (newOf (init ++ [b])).length ∨
      b.pos.new + b.new.length ≤ p.new + (newOf (init ++ [b])).length ∧ gap = [] ∧
        EndsIn '-' ((init ++ [b]).flatMap Block.tagged)) := by
  have hstands := (along_concat.1 cut.stands).2
  rw [foldl_block_next] at hstands
  simp only [oldOf_append, oldOf_cons, oldOf_nil, newOf_append, newOf_cons, newOf_nil,
    List.append_nil, List.length_append, ← Nat.add_assoc] at total ⊢
  cases b with
  | keep pos lines =>
    obtain ⟨-, rfl⟩ := hstands
    exact ⟨.inl rfl, .inl rfl⟩
  | change pos deleted inserted =>
    obtain ⟨filled, hold, hdeleted, hbound, hinserted⟩ := hstands
    have hgap : gap = [] := by
      by_contra hgap
      simpa using cut.closes hgap
    constructor
    · by_cases none : deleted = []
      · subst none
        have ne : inserted ≠ [] := by simpa using filled
        exact .inr ⟨hold, hgap, endsIn_concat cut.alternates cut.stands rfl (by simp) ne⟩
      · exact .inl (congrArg (· + deleted.length) (hdeleted none))
    · by_cases none : inserted = []
      · subst none
        have ne : deleted ≠ [] := by simpa using filled
        refine .inr ⟨?_, hgap, endsIn_concat cut.alternates cut.stands rfl (by simp) ne⟩
        exact (hbound rfl).trans (total hgap).le
      · exact .inl (congrArg (· + inserted.length) (hinserted none))

/-- The header of a hunk tells the ranges from its first to its last block. -/
theorem HunkText.Shows.tells {h : HunkText} {first last : Block Line} (shows : h.Shows hunk)
    (hfirst : hunk.head? = some first) (hlast : hunk.getLast? = some last) :
    h.Tells ⟨first.pos.old, last.pos.old + last.old.length - first.pos.old⟩
      ⟨first.pos.new, last.pos.new + last.new.length - first.pos.new⟩ := by
  rw [HunkText.Tells, shows.header, Diff.header, hfirst, hlast]
  simp [stretch_eq_text, toString]

/-- The header of a hunk tells where the hunk stands, except at the ends of the texts. -/
theorem Cut.exists_headed {h : HunkText} {ends : Prop} (cut : Cut n r p hunk gap)
    (shows : h.Shows hunk) (hends : gap = [] → ends)
    (total : gap = [] → n = p.new + (newOf hunk).length) :
    ∃ old new, h.Headed p ends old new := by
  obtain ⟨first, rest, hcons⟩ : ∃ first rest, hunk = first :: rest :=
    List.exists_cons_of_ne_nil (by rintro rfl; simpa using cut.changes)
  obtain ⟨init, last, hconcat⟩ : ∃ init last, hunk = init ++ [last] :=
    ⟨_, _, (List.dropLast_concat_getLast (by simp [hcons])).symm⟩
  have hfirst : hunk.head? = some first := by simp [hcons]
  have hlast : hunk.getLast? = some last := by simp [hconcat]
  obtain ⟨hold, hle, hnew⟩ := (hcons ▸ cut).first_pos
  obtain ⟨hlastOld, hlastNew⟩ := (hconcat ▸ cut).last_pos (hconcat ▸ total)
  rw [← hcons] at hnew
  rw [← hconcat] at hlastOld hlastNew
  refine ⟨_, _, shows.tells hfirst hlast, hold, ?_, ?_, hle, ?_, ?_, ?_⟩
  all_goals simp only [shows.body, shows.old, shows.new]
  · omega
  · intro h
    rcases hlastOld with heq | ⟨-, hgap, hrun⟩
    · omega
    · exact absurd ⟨hends hgap, hrun⟩ h
  · exact fun h => hnew.resolve_right h
  · omega
  · intro h h'
    rcases hlastNew with heq | ⟨-, hgap, hrun⟩
    · have := hnew.resolve_right h
      omega
    · exact absurd ⟨hends hgap, hrun⟩ h'

/-! ### The headers of a diff -/

theorem untag_sameLines {tags : List Char} (h : ' ' ∈ tags) (lines : List Line) :
    untag tags (sameLines lines) = lines := by
  rw [sameLines, untag_map_cons, if_pos h]

/-- The headers of windows tell where their hunks stand, except at the ends of the texts. -/
theorem Windows.exists_headed {hunks : List (List (Block Line))} {all : List Line}
    {texts : List HunkText} (h : Windows n r p hunks all)
    (hshows : List.Forall₂ (fun hunk h => h.Shows hunk) hunks texts)
    (total : n = p.new + (untag [' ', '+'] all).length) :
    ∃ read : List (HunkText × List Line), read.map Prod.fst = texts ∧
      untag [' ', '-'] all = read.flatMap (fun w => w.1.old ++ w.2) ∧
      untag [' ', '+'] all = read.flatMap (fun w => w.1.new ++ w.2) ∧
      ∀ before hunk gap after, read = before ++ (hunk, gap) :: after →
        ∃ old new, hunk.Headed
          (p.advance (before.flatMap fun w => w.1.old ++ w.2).length
            (before.flatMap fun w => w.1.new ++ w.2).length) (gap = [] ∧ after = []) old new := by
  induction h generalizing texts with
  | nil p =>
    cases hshows
    exact ⟨[], rfl, rfl, rfl, by simp⟩
  | @cons p hunk gap hunks all cut short apart later ih =>
    obtain _ | ⟨shows, hshows⟩ := hshows
    rename_i t texts
    have hold : untag [' ', '-'] (hunk.flatMap Block.tagged ++ (sameLines gap ++ all)) =
        t.old ++ gap ++ untag [' ', '-'] all := by
      rw [untag_append, untag_append, untag_sameLines (by simp), ← shows.body, ← HunkText.old,
        List.append_assoc]
    have hnew : untag [' ', '+'] (hunk.flatMap Block.tagged ++ (sameLines gap ++ all)) =
        t.new ++ gap ++ untag [' ', '+'] all := by
      rw [untag_append, untag_append, untag_sameLines (by simp), ← shows.body, ← HunkText.new,
        List.append_assoc]
    have hnext : (hunk.foldl Block.next p).advance gap.length gap.length =
        p.advance (t.old ++ gap).length (t.new ++ gap).length := by
      rw [foldl_block_next, ← shows.old, ← shows.new, Position.advance_advance,
        List.length_append, List.length_append]
    rw [hnew, List.length_append, ← Nat.add_assoc] at total
    obtain ⟨read, rfl, hreadOld, hreadNew, hread⟩ := ih hshows (by rw [hnext]; exact total)
    refine ⟨(t, gap) :: read, rfl, ?_, ?_, ?_⟩
    · rw [hold, hreadOld, List.flatMap_cons]
    · rw [hnew, hreadNew, List.flatMap_cons]
    · intro before hunk' gap' after heq
      cases before with
      | nil =>
        obtain ⟨⟨rfl, rfl⟩, rfl⟩ : (t = hunk' ∧ gap = gap') ∧ read = after := by simpa using heq
        have hlast : gap = [] → read = [] := fun hgap => by
          have hnone : hunks = [] := not_imp_not.1 apart hgap
          simpa [hnone] using hshows.length_eq.symm
        refine cut.exists_headed shows (fun hgap => ⟨hgap, hlast hgap⟩) fun hgap => ?_
        rw [total, hreadNew, hlast hgap, hgap, ← shows.new]
        simp
      | cons w before =>
        obtain ⟨rfl, rfl⟩ : (t, gap) = w ∧ read = before ++ (hunk', gap') :: after := by
          simpa using heq
        obtain ⟨old, new, hheaded⟩ := hread before hunk' gap' after rfl
        refine ⟨old, new, ?_⟩
        rw [hnext, Position.advance_advance] at hheaded
        simpa only [List.flatMap_cons, List.length_append] using hheaded

/-- A diff is read by its lines, with the lines that both texts have before, between and behind the
hunks.  Each header tells where its hunk stands in both texts, except that at the start and at the
end of the texts a header can tell a new range that begins too late and ranges that are too short.
-/
theorem headers_tell (actual expected : List Char) :
    ∃ (first : List Line) (read : List (HunkText × List Line)),
      Text.lines (unified actual expected).toList = diffLines (read.map Prod.fst) ∧
      Text.lines (Text.complete actual) = first ++ read.flatMap (fun w => w.1.old ++ w.2) ∧
      Text.lines (Text.complete expected) = first ++ read.flatMap (fun w => w.1.new ++ w.2) ∧
      ∀ before hunk gap after, read = before ++ (hunk, gap) :: after →
        ∃ old new, hunk.Headed
          ⟨(first ++ before.flatMap fun w => w.1.old ++ w.2).length,
            (first ++ before.flatMap fun w => w.1.new ++ w.2).length⟩
          (gap = [] ∧ after = []) old new := by
  obtain ⟨-, texts, hshows, hlines, -, -⟩ := exists_reading_hunks actual expected
  obtain ⟨first, shown, hdisplayed, hwindows⟩ := windows_hunksOf actual expected
  obtain ⟨hold, hnew⟩ := untag_displayed actual expected
  rw [hdisplayed, untag_append, untag_sameLines (by simp)] at hold hnew
  obtain ⟨read, hread, hreadOld, hreadNew, htell⟩ :=
    hwindows.exists_headed hshows (by rw [← hnew, List.length_append])
  refine ⟨first, read, by rw [hread, hlines], by rw [← hold, hreadOld], by rw [← hnew, hreadNew],
    fun before hunk gap after heq => ?_⟩
  simpa [Position.advance] using htell before hunk gap after heq

/-! ### A header that misleads -/

theorem stepsFrom_nil_old {α : Type} [DecidableEq α] (pos : Position) (new : List α) :
    stepsFrom pos [] new = step? .insert pos new := by
  rw [stepsFrom]
  simp [sharedPrefix, sharedFrom, sharedSuffix, step?, Position.advance]

theorem stepsFrom_nil_new {α : Type} [DecidableEq α] (pos : Position) (old : List α) :
    stepsFrom pos old [] = step? .delete pos old := by
  rw [stepsFrom]
  cases old <;> simp [sharedPrefix, sharedFrom, sharedSuffix, step?, Position.advance]

/-- Lists that share nothing but their end are split there and where a shortest path is. -/
theorem stepsFrom_of_split {α : Type} [DecidableEq α] {pos : Position} {old new kept : List α}
    {x y : Nat} (hfront : sharedPrefix (old ++ kept) (new ++ kept) = 0)
    (hback : sharedSuffix (old ++ kept) (new ++ kept) = kept.length) (hold : old ≠ [])
    (hnew : new ≠ []) (hsplit : split? old new = some (x, y)) :
    stepsFrom pos (old ++ kept) (new ++ kept) =
      stepsFrom pos (old.take x) (new.take y) ++
        stepsFrom (pos.advance x y) (old.drop x) (new.drop y) ++
        step? .keep (pos.advance old.length new.length) kept := by
  rw [stepsFrom]
  simp only [hfront, hback, List.drop_zero, List.take_zero, List.length_append,
    Nat.add_sub_cancel, List.take_left, List.drop_left, Position.advance_zero, List.isEmpty_iff,
    hold, hnew, step?, Bool.or_eq_true, or_self, if_false, List.isEmpty_nil, if_true,
    List.nil_append]
  congr 1
  split
  · rename_i h
    simp only [hfront, hback, List.drop_zero, List.length_append, Nat.add_sub_cancel,
      List.take_left, hsplit, Option.some.injEq, Prod.mk.injEq] at h
    rw [h.1, h.2]
  · rename_i h
    simp [hfront, hback, hsplit] at h

/-- The line that is inserted first is made to stand behind the line that is kept, but the deletion
keeps its position behind the insertion. -/
theorem script_sample :
    script ["a\n".toList, "b\n".toList] ["b\n".toList, "b\n".toList] =
      [⟨.delete, ⟨0, 1⟩, ["a\n".toList]⟩, ⟨.keep, ⟨1, 0⟩, ["b\n".toList]⟩,
        ⟨.insert, ⟨1, 1⟩, ["b\n".toList]⟩] := by
  have hsplit : split? ["a\n".toList] ["b\n".toList] = some (0, 1) := by cbv
  have hsteps : steps (["a\n".toList] ++ ["b\n".toList]) (["b\n".toList] ++ ["b\n".toList]) =
      [⟨.insert, ⟨0, 0⟩, ["b\n".toList]⟩, ⟨.delete, ⟨0, 1⟩, ["a\n".toList]⟩,
        ⟨.keep, ⟨1, 1⟩, ["b\n".toList]⟩] := by
    rw [steps, stepsFrom_of_split (by decide) (by decide) (by simp) (by simp) hsplit]
    simp [stepsFrom_nil_old, stepsFrom_nil_new, step?, Position.advance]
  rw [List.singleton_append, List.singleton_append] at hsteps
  rw [script, hsteps]
  simp [compact, slide, slideFrom, Cursor.up, Cursor.down, passDown, sharedPrefix, sharedFrom,
    keepUnlessEmpty, keepAfter, Position.advance]

/-- The diff of two texts of two lines shows both lines of both texts, but its header tells no range
of two lines. -/
theorem header_misleads :
    ∃ hunk : HunkText,
      Text.lines (unified "a\nb\n".toList "b\nb\n".toList).toList = diffLines [hunk] ∧
      hunk.old = ["a\n".toList, "b\n".toList] ∧ hunk.new = ["b\n".toList, "b\n".toList] ∧
      hunk.header = "@@ -1 +2 @@\n".toList ∧ ¬ hunk.Tells ⟨0, 2⟩ ⟨0, 2⟩ := by
  have hhunks : hunksOf "a\nb\n".toList "b\nb\n".toList =
      [[.change ⟨0, 1⟩ ["a\n".toList] [], .keep ⟨1, 0⟩ ["b\n".toList],
        .change ⟨1, 1⟩ [] ["b\n".toList]]] := by
    have hlines : Text.lines (Text.complete "a\nb\n".toList) = ["a\n".toList, "b\n".toList] ∧
        Text.lines (Text.complete "b\nb\n".toList) = ["b\n".toList, "b\n".toList] := by decide
    rw [hunksOf, hlines.1, hlines.2, script_sample]
    rfl
  obtain ⟨-, read, hshows, hlines, -, -⟩ :=
    exists_reading_hunks "a\nb\n".toList "b\nb\n".toList
  rw [hhunks] at hshows
  obtain ⟨hunk, rest, shows, hrest, hread⟩ := List.forall₂_cons_left_iff.1 hshows
  obtain rfl := List.forall₂_nil_left_iff.1 hrest
  have hheader : hunk.header = "@@ -1 +2 @@\n".toList := shows.header.trans (by decide)
  refine ⟨hunk, hread ▸ hlines, shows.old, shows.new, hheader, ?_⟩
  rw [HunkText.Tells, hheader]
  decide

end Touchstone.Diff
