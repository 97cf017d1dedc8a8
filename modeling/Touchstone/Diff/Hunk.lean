import Touchstone.Diff.Script

/-!
# Hunks

For display, kept steps that touch are joined, and the deletions and insertions between two kept
runs become one change.  A change is shown with up to `radius` kept lines around it; changes with at
most `2 * radius` kept lines between them share a hunk.

## Main definitions

* `Touchstone.Diff.Block` : a kept run or a change.
* `Touchstone.Diff.blocks` : the blocks of a script.
* `Touchstone.Diff.hunks` : the blocks that are shown, by hunks.
-/

namespace Touchstone.Diff

/-- A part of a script that is shown as one. -/
inductive Block (α : Type) where
  /-- Lines of both lists. -/
  | keep (pos : Position) (lines : List α)
  /-- Lines of the old list in place of which lines of the new list stand. -/
  | change (pos : Position) (deleted inserted : List α)
  deriving DecidableEq, Repr

variable {α : Type}

namespace Block

/-- The position of a block. -/
def pos : Block α → Position
  | .keep pos _ => pos
  | .change pos _ _ => pos

/-- The lines of a block that stand in the old list. -/
def old : Block α → List α
  | .keep _ lines => lines
  | .change _ deleted _ => deleted

/-- The lines of a block that stand in the new list. -/
def new : Block α → List α
  | .keep _ lines => lines
  | .change _ _ inserted => inserted

/-- A block is kept if its lines stand in both lists. -/
def isKeep : Block α → Bool
  | .keep _ _ => true
  | .change _ _ _ => false

end Block

/-! ### Blocks of a script -/

/-- Add a step to the blocks before it, which stand in reverse.

A change takes its old line number from its first deletion and its new line number from its first
insertion; where it has no such step, from the other. -/
def addStep (done : List (Block α)) (s : Step α) : List (Block α) :=
  match s.kind, done with
  | .keep, .keep pos lines :: rest => .keep pos (lines ++ s.lines) :: rest
  | .keep, rest => .keep s.pos s.lines :: rest
  | .delete, .change pos deleted inserted :: rest =>
    let pos := if deleted.isEmpty then { pos with old := s.pos.old } else pos
    .change pos (deleted ++ s.lines) inserted :: rest
  | .delete, rest => .change s.pos s.lines [] :: rest
  | .insert, .change pos deleted inserted :: rest =>
    let pos := if inserted.isEmpty then { pos with new := s.pos.new } else pos
    .change pos deleted (inserted ++ s.lines) :: rest
  | .insert, rest => .change s.pos [] s.lines :: rest

/-- The blocks of a script. -/
def blocks (script : List (Step α)) : List (Block α) :=
  (script.foldl addStep []).reverse

/-! ### Hunks of a script -/

/-- A kept run without all but its last `radius` lines; a change as it is. -/
def Block.lastLines (radius : Nat) : Block α → Block α
  | .keep pos lines =>
    let cut := lines.length - radius
    .keep (pos.advance cut cut) (lines.drop cut)
  | block => block

/-- A kept run without all but its first `radius` lines; a change as it is. -/
def Block.firstLines (radius : Nat) : Block α → Block α
  | .keep pos lines => .keep pos (lines.take radius)
  | block => block

/-- The blocks with the first one cut to its last lines and the last one to its first lines. -/
def trimEnds (radius : Nat) : List (Block α) → List (Block α)
  | [] => []
  | first :: rest =>
    let all := first.lastLines radius :: rest
    all.dropLast ++ (all.getLast?.map (Block.firstLines radius)).toList

/-- The hunk whose blocks are given in reverse, unless it holds no change. -/
def closeHunk : List (Block α) → List (List (Block α))
  | [] => []
  | [.keep _ _] => []
  | hunk => [hunk.reverse]

/-- The hunks of the remaining blocks, where `hunk` holds the blocks of the open hunk in reverse.  A
kept run of more than `2 * radius` lines closes the hunk and opens the next one. -/
def hunksFrom (radius : Nat) (hunk : List (Block α)) : List (Block α) → List (List (Block α))
  | [] => closeHunk hunk
  | .keep pos lines :: rest =>
    let block := Block.keep pos lines
    if 2 * radius < lines.length then
      (block.firstLines radius :: hunk).reverse ::
        hunksFrom radius [block.lastLines radius] rest
    else hunksFrom radius (block :: hunk) rest
  | block :: rest => hunksFrom radius (block :: hunk) rest

/-- The hunks of a list of blocks. -/
def hunks (radius : Nat) (all : List (Block α)) : List (List (Block α)) :=
  hunksFrom radius [] (trimEnds radius all)

end Touchstone.Diff
