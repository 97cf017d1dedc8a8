import Touchstone.Event
import Touchstone.Report

/-!
# Reporters

A run tells a reporter what happens, as it happens: when the interpreter is about to be started on a
fixture, what became of the fixture, and at the end how many fixtures there were.  A reporter is
what it holds, and how it goes on from there at each of these moments.

## Main definitions

* `Touchstone.Reporter` : a reporter.
* `Touchstone.Reporter.memory` : the reporter that keeps the events.
-/

namespace Touchstone

/-- A reporter that holds a value of a type. -/
structure Reporter (σ : Type) where
  /-- The interpreter is about to be started on a fixture. -/
  started : Fixture → σ → σ
  /-- A fixture passed. -/
  passed : Fixture → σ → σ
  /-- A fixture has no expected output. -/
  missingExpectation : Fixture → σ → σ
  /-- The output on a fixture differed as the diff shows. -/
  mismatch : Fixture → String → σ → σ
  /-- The run is complete. -/
  finished : Summary → σ → σ

/-- Tell the outcome of a fixture. -/
def Reporter.outcome {σ : Type} (r : Reporter σ) (f : Fixture) : Outcome → σ → σ
  | .passed => r.passed f
  | .missingExpectation => r.missingExpectation f
  | .mismatch diff => r.mismatch f diff

/-- The reporter that keeps the events, in order. -/
def Reporter.memory : Reporter (List Event) where
  started f events := events ++ [.started f.path]
  passed f events := events ++ [.passed f.path]
  missingExpectation f events := events ++ [.missingExpectation f.path f.expectation]
  mismatch f diff events := events ++ [.mismatch f.path diff]
  finished s events := events ++ [.finished s.numRun s.numFailed]

end Touchstone
