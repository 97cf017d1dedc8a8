import Touchstone.Diff.Hunk
import Touchstone.Proofs.Diff.Layout
import Touchstone.Proofs.Diff.Sinking

/-!
# The blocks of a script in their places

Joining the steps of a script leaves kept runs and changes in turn.  Each block has lines, and it
stands where its position says: a kept run in both lists, a change in every list in which it has
lines.  Of a change that only inserts, the line of the old list is not beyond its place.

## Main definitions

* `Touchstone.Diff.Block.StandsAt` : a block has lines, and its position tells where they are.
* `Touchstone.Diff.Alternates` : kept runs and changes in turn.

## Main results

* `Touchstone.Diff.along_blocks` : the blocks of a script in place are in place.
* `Touchstone.Diff.alternates_blocks` : the blocks of a script alternate.
-/

namespace Touchstone.Diff

variable {α : Type}

/-! ### Blocks in their places -/

/-- The position behind a block that begins at a position. -/
def Block.next (p : Position) (b : Block α) : Position := p.advance b.old.length b.new.length

theorem foldl_block_next (p : Position) (all : List (Block α)) :
    all.foldl Block.next p = p.advance (oldOf all).length (newOf all).length := by
  induction all generalizing p with
  | nil => rfl
  | cons b all ih => simp [ih, Block.next]

/-- A block has lines, and its position is `p` in every list that has them.  The position of a
change without deleted lines is not beyond `p` in the old list, that of a change without inserted
lines is some line of the new list, which has `n` lines. -/
def Block.StandsAt (n : Nat) (p : Position) : Block α → Prop
  | .keep pos lines => lines ≠ [] ∧ pos = p
  | .change pos deleted inserted =>
    (deleted ≠ [] ∨ inserted ≠ []) ∧ pos.old ≤ p.old ∧ (deleted ≠ [] → pos.old = p.old) ∧
      (inserted = [] → pos.new ≤ n) ∧ (inserted ≠ [] → pos.new = p.new)

variable {n : Nat} {p : Position}

/-- A step in its place is joined to blocks in their places. -/
theorem along_addStep {done : List (Block α)} {s : Step α}
    (hdone : Along Block.next (Block.StandsAt n) p done.reverse)
    (hs : s.StandsAt n (done.reverse.foldl Block.next p))
    (behind : s.InsertsBehind (done.reverse.foldl Block.next p)) :
    Along Block.next (Block.StandsAt n) p (addStep done s).reverse := by
  obtain ⟨kind, pos, lines⟩ := s
  obtain ⟨filled, keeps, deletes, inserts⟩ := hs
  simp only at filled keeps deletes inserts behind
  cases kind with
  | keep =>
    rcases done with _ | ⟨⟨last, kept⟩ | ⟨last, deleted, inserted⟩, rest⟩
    · exact ⟨⟨filled, keeps rfl⟩, trivial⟩
    · rw [List.reverse_cons, along_concat] at hdone
      simp only [addStep, List.reverse_cons, along_concat]
      exact ⟨hdone.1, by simp [filled], hdone.2.2⟩
    · simp only [addStep, List.reverse_cons (a := Block.keep _ _), along_concat]
      exact ⟨hdone, filled, keeps rfl⟩
  | delete =>
    obtain ⟨hold, hnew⟩ := deletes rfl
    rcases done with _ | ⟨⟨last, kept⟩ | ⟨last, deleted, inserted⟩, rest⟩
    · exact ⟨⟨.inl filled, hold.le, fun _ => hold, fun _ => hnew, by simp⟩, trivial⟩
    · simp only [addStep, List.reverse_cons (a := Block.change _ _ _), along_concat]
      exact ⟨hdone, .inl filled, hold.le, fun _ => hold, fun _ => hnew, by simp⟩
    · rw [List.reverse_cons, List.foldl_concat] at hold
      rw [List.reverse_cons, along_concat] at hdone
      simp only [addStep, List.reverse_cons, along_concat]
      obtain ⟨hrest, -, hle, heq, hbound, hins⟩ := hdone
      refine ⟨hrest, .inl (by simp [filled]), ?_⟩
      by_cases none : deleted = []
      · subst none
        have hplace : pos.old = (rest.reverse.foldl Block.next p).old := by
          simpa [Block.next, Block.old] using hold
        exact ⟨hplace.le, fun _ => hplace, hbound, hins⟩
      · rw [if_neg (by simpa using none)]
        exact ⟨hle, fun _ => heq none, hbound, hins⟩
  | insert =>
    have hnew := inserts rfl
    have hold := behind rfl
    rcases done with _ | ⟨⟨last, kept⟩ | ⟨last, deleted, inserted⟩, rest⟩
    · exact ⟨⟨.inr filled, hold, by simp, (absurd · filled), fun _ => hnew⟩, trivial⟩
    · simp only [addStep, List.reverse_cons (a := Block.change _ _ _), along_concat]
      exact ⟨hdone, .inr filled, hold, by simp, (absurd · filled), fun _ => hnew⟩
    · rw [List.reverse_cons, List.foldl_concat] at hnew
      rw [List.reverse_cons, along_concat] at hdone
      simp only [addStep, List.reverse_cons, along_concat]
      obtain ⟨hrest, -, hle, heq, hbound, hins⟩ := hdone
      refine ⟨hrest, .inr (by simp [filled]), ?_⟩
      by_cases none : inserted = []
      · subst none
        have hplace : pos.new = (rest.reverse.foldl Block.next p).new := by
          simpa [Block.next, Block.new] using hnew
        exact ⟨hle, heq, by simp [filled], fun _ => hplace⟩
      · rw [if_neg (by simpa using none)]
        exact ⟨hle, heq, by simp [filled], fun _ => hins none⟩

theorem along_foldl_addStep {script : List (Step α)} (done : List (Block α))
    (hdone : Along Block.next (Block.StandsAt n) p done.reverse)
    (hscript : Along Step.next (Step.Made n) (done.reverse.foldl Block.next p) script) :
    Along Block.next (Block.StandsAt n) p (script.foldl addStep done).reverse := by
  induction script generalizing done with
  | nil => exact hdone
  | cons s script ih =>
    refine ih _ (along_addStep hdone hscript.1.1 hscript.1.2) ?_
    have hnext : (addStep done s).reverse.foldl Block.next p =
        s.next (done.reverse.foldl Block.next p) := by
      simp only [foldl_block_next, (sides_addStep done s).1, (sides_addStep done s).2, Step.next,
        List.length_append, Position.advance_advance]
    exact hnext ▸ hscript.2

/-- The blocks of a script in place are in place. -/
theorem along_blocks {script : List (Step α)} (h : Along Step.next (Step.Made n) p script) :
    Along Block.next (Block.StandsAt n) p (blocks script) :=
  along_foldl_addStep [] trivial h

/-! ### Kept runs and changes in turn -/

/-- Kept runs and changes come in turn. -/
def Alternates (all : List (Block α)) : Prop := (all.map Block.isKeep).IsChain (· ≠ ·)

theorem alternates_addStep {done : List (Block α)} (h : Alternates done) (s : Step α) :
    Alternates (addStep done s) := by
  obtain ⟨kind, pos, lines⟩ := s
  rcases done with _ | ⟨⟨last, kept⟩ | ⟨last, deleted, inserted⟩, rest⟩
  · cases kind <;> simp [Alternates, addStep]
  · cases kind <;> simpa [Alternates, addStep, Block.isKeep, List.isChain_cons] using h
  · cases kind <;> simpa [Alternates, addStep, Block.isKeep, List.isChain_cons] using h

/-- The blocks of a script alternate. -/
theorem alternates_blocks (script : List (Step α)) : Alternates (blocks script) := by
  have hdone : Alternates (script.foldl addStep []) := by
    have h : ∀ done : List (Block α), Alternates done → Alternates (script.foldl addStep done) := by
      induction script with
      | nil => exact fun _ h => h
      | cons s script ih => exact fun done h => ih _ (alternates_addStep h s)
    exact h [] (by simp [Alternates])
  simpa [blocks, Alternates, List.isChain_reverse, ne_comm] using hdone

end Touchstone.Diff
