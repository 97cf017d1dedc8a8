import Touchstone.Path

/-!
# Events of a run

A run tells its observers about each fixture, and at its end about the whole.

## Main definitions

* `Touchstone.Event` : an event.
* `Touchstone.Event.isFailure` : an event that tells of a failed fixture.
-/

namespace Touchstone

/-- What a run tells its observers. -/
inductive Event where
  /-- The interpreter is about to be started on a fixture. -/
  | started (fixture : Path)
  /-- A fixture passed. -/
  | passed (fixture : Path)
  /-- A fixture has no expected output. -/
  | missingExpectation (fixture expectation : Path)
  /-- The output on a fixture differed as the diff shows. -/
  | mismatch (fixture : Path) (diff : String)
  /-- The run is complete. -/
  | finished (numRun numFailed : Nat)
  deriving DecidableEq, Repr

/-- The event tells of a failed fixture. -/
def Event.isFailure : Event → Bool
  | .missingExpectation _ _ | .mismatch _ _ => true
  | _ => false

end Touchstone
