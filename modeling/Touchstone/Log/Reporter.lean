import Touchstone.Log.Record
import Touchstone.Reporter

/-!
# Reporting to the log

The reporter of the command writes log records: progress at level debug, failed fixtures at level
error, and the end of a run at level info, or at level error if fixtures failed.

## Main definitions

* `Touchstone.Reporter.log` : the reporter that writes log records.
-/

namespace Touchstone

namespace Log

/-- The target of the records about fixtures. -/
def reporterTarget : String := "golden_core::reporter"

/-- A record about fixtures. -/
def aboutFixtures (level : Level) (message : String) (fields : List (String × String)) : Record :=
  ⟨level, reporterTarget, message, fields⟩

end Log

open Log (Record aboutFixtures)

/-- The reporter that writes log records, in order. -/
def Reporter.log : Reporter (List Record) where
  started f records :=
    let shown := f.path.display
    records ++
      [aboutFixtures .debug ("running test for '" ++ shown ++ "'...") [("fixture", shown)]]
  passed f records := records ++ [aboutFixtures .debug "success" [("fixture", f.path.display)]]
  missingExpectation f records :=
    let shown := f.path.display
    let expected := f.expectation.display
    records ++
      [aboutFixtures .error
        ("source file '" ++ shown ++ "' doesn't seem to have a corresponding file containing " ++
          "its expected output (expected '" ++ expected ++ "')")
        [("fixture", shown), ("expectation", expected)]]
  mismatch f diff records :=
    records ++
      [aboutFixtures .error "output does not match the expected output"
          [("fixture", f.path.display)],
        aboutFixtures .error ("\n" ++ diff) []]
  finished s records :=
    let run := ("num_run", toString s.numRun)
    if s.passed then
      records ++ [aboutFixtures .info ("all " ++ toString s.numRun ++ " tests succeeded") [run]]
    else
      records ++
        [aboutFixtures .error
          (toString s.numFailed ++ " out " ++ toString s.numRun ++ " tests of failed")
          [run, ("num_failed", toString s.numFailed)]]

end Touchstone
