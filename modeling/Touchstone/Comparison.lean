import Touchstone.Diff.Unified
import Touchstone.Text.Blank

/-!
# Comparing output with an expectation

White space at the ends of a text does not count.  Two texts that differ otherwise are described by
the unified diff of their trimmed forms, from the actual to the expected text.

## Main definitions

* `Touchstone.Comparison` : the result of a comparison.
* `Touchstone.compareOutput` : compare two texts.
-/

namespace Touchstone

/-- The result of comparing an output with its expectation. -/
inductive Comparison where
  /-- The trimmed texts are equal. -/
  | same
  /-- The trimmed texts differ as the diff shows. -/
  | differs (diff : String)
  deriving DecidableEq, Repr

/-- Compare the actual text with the expected one. -/
def compareOutput (actual expected : List Char) : Comparison :=
  if Text.trim actual = Text.trim expected then .same
  else .differs (Diff.unified (Text.trim actual) (Text.trim expected))

end Touchstone
