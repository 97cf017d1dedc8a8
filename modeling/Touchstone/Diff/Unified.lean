import Touchstone.Diff.Divide
import Touchstone.Diff.Hunk
import Touchstone.Diff.Slide
import Touchstone.Text.Line

/-!
# Unified diffs

The difference of two texts is shown as hunks of lines.  Each line is marked: a blank for a line of
both texts, `-` for a line of the old text, `+` for a line of the new one.  A header in front of
each hunk tells where it stands in the two texts, and two lines in front of all name the texts.  A
line without an ending would be followed by a hint.

Both texts are completed with a line feed first, so a last line without one is no change.

## Main definitions

* `Touchstone.Diff.script` : the edit script that is displayed.
* `Touchstone.Diff.unified` : the unified diff of two texts.
-/

namespace Touchstone.Diff

/-- The number of kept lines shown around a change. -/
def contextRadius : Nat := 3

/-- A line of a text. -/
abbrev Line := List Char

/-- The edit script that is displayed for two lists of lines. -/
def script (old new : List Line) : List (Step Line) :=
  compact (steps old new)

/-! ### Text of a hunk -/

/-- A line with its mark. -/
inductive Marked where
  /-- A line of both texts. -/
  | same (line : Line)
  /-- A line of the old text. -/
  | minus (line : Line)
  /-- A line of the new text. -/
  | plus (line : Line)
  deriving DecidableEq, Repr

namespace Marked

/-- The mark in front of a line. -/
def mark : Marked → Char
  | .same _ => ' '
  | .minus _ => '-'
  | .plus _ => '+'

/-- The line behind the mark, with its ending. -/
def line : Marked → Line
  | .same line | .minus line | .plus line => line

/-- The hint that is shown behind a line without an ending. -/
def hint : String := "\n\\ No newline at end of file\n"

/-- The text of a marked line. -/
def text (m : Marked) : List Char :=
  if m.line.getLast?.any (fun c => c = '\n' || c = '\r') then m.mark :: m.line
  else m.mark :: m.line ++ hint.toList

end Marked

/-- The marked lines of a block: of a change first the old lines, then the new ones. -/
def Block.marked : Block Line → List Marked
  | .keep _ lines => lines.map .same
  | .change _ deleted inserted => deleted.map .minus ++ inserted.map .plus

/-- A stretch of lines in a header: its first line counted from one, and its length unless it is
one.  An empty stretch is placed at the line before it. -/
def stretch (first last : Nat) : String :=
  match last - first with
  | 0 => s!"{first},0"
  | 1 => s!"{first + 1}"
  | length => s!"{first + 1},{length}"

/-- The header of a hunk, which reaches from the start of its first block to the end of its last. -/
def header (hunk : List (Block Line)) : String :=
  match hunk.head?, hunk.getLast? with
  | some first, some last =>
    let old := stretch first.pos.old (last.pos.old + last.old.length)
    let new := stretch first.pos.new (last.pos.new + last.new.length)
    s!"@@ -{old} +{new} @@"
  | _, _ => ""

/-- The text of a hunk. -/
def hunkText (hunk : List (Block Line)) : List Char :=
  (header hunk).toList ++ '\n' :: (hunk.flatMap Block.marked).flatMap Marked.text

/-! ### Text of a diff -/

/-- The hunks of the diff of two texts. -/
def hunksOf (old new : List Char) : List (List (Block Line)) :=
  hunks contextRadius
    (blocks (script (Text.lines (Text.complete old)) (Text.lines (Text.complete new))))

/-- The lines that name the two texts. -/
def titles : String := "--- actual\n+++ expected\n"

/-- The unified diff of two texts; it is empty if no line differs. -/
def unified (old new : List Char) : String :=
  match hunksOf old new with
  | [] => ""
  | all => titles ++ String.ofList (all.flatMap hunkText)

end Touchstone.Diff
