import Touchstone.Diff.Script
import Touchstone.Diff.Snake

/-!
# The first edit script of two lists

Lines that both lists share at their start and at their end are kept.  If one list has nothing left,
the rest of the other is deleted or inserted.  Otherwise the lists are split at a point of a
shortest path and both halves are treated alike.

## Main definitions

* `Touchstone.Diff.stepsFrom` : the script of two lists that begin at a position.
* `Touchstone.Diff.steps` : the script of two whole lists.
-/

namespace Touchstone.Diff

variable {α : Type}

/-- A step, unless there are no lines for it. -/
def step? (kind : Kind) (pos : Position) (lines : List α) : List (Step α) :=
  if lines.isEmpty then [] else [⟨kind, pos, lines⟩]

variable [DecidableEq α]

theorem split?_bounds {old new : List α} {x y : Nat} (h : split? old new = some (x, y)) :
    x ≤ old.length ∧ y ≤ new.length ∧ 0 < x + y ∧ x + y < old.length + new.length := by
  simp only [split?] at h
  split at h
  · split at h
    · simp only [Option.some.injEq, Prod.mk.injEq] at h
      omega
    · simp at h
  · simp at h

/-- The script of two lists that begin at the position `pos`. -/
def stepsFrom (pos : Position) (old new : List α) : List (Step α) :=
  let start := sharedPrefix old new
  let oldRest := old.drop start
  let newRest := new.drop start
  let finish := sharedSuffix oldRest newRest
  let oldMid := oldRest.take (oldRest.length - finish)
  let newMid := newRest.take (newRest.length - finish)
  let mid := pos.advance start start
  let replaced := step? .delete mid oldMid ++ step? .insert mid newMid
  step? .keep pos (old.take start) ++
    (if oldMid.isEmpty || newMid.isEmpty then replaced
    else
      match _h : split? oldMid newMid with
      | some (x, y) =>
        stepsFrom mid (oldMid.take x) (newMid.take y) ++
          stepsFrom (mid.advance x y) (oldMid.drop x) (newMid.drop y)
      | none => replaced) ++
    step? .keep (mid.advance oldMid.length newMid.length)
      (oldRest.drop (oldRest.length - finish))
termination_by old.length + new.length
decreasing_by
  all_goals
    have hb := split?_bounds _h
    simp only [oldMid, newMid, oldRest, newRest, List.length_take, List.length_drop] at hb ⊢
    omega

/-- The script of two lists. -/
def steps (old new : List α) : List (Step α) := stepsFrom ⟨0, 0⟩ old new

end Touchstone.Diff
