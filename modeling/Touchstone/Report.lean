import Touchstone.Fixture
import Touchstone.Json

/-!
# Reports

The outcome of each fixture is recorded in a report, and a summary counts the reports.  At the end
of a run the summary can be put into a document, together with the time and the paths of the run.

## Main definitions

* `Touchstone.Outcome` : the outcome of a fixture.
* `Touchstone.FixtureReport` : an outcome with the paths of its fixture.
* `Touchstone.Summary` : the reports of a run, counted.
* `Touchstone.RunReport` : a run as a document.
-/

namespace Touchstone

/-! ### Outcomes -/

/-- The outcome of a fixture whose run did not fail. -/
inductive Outcome where
  /-- The output was as expected. -/
  | passed
  /-- There is no expected output. -/
  | missingExpectation
  /-- The output differed as the diff shows. -/
  | mismatch (diff : String)
  deriving DecidableEq, Repr

namespace Outcome

/-- The fixture passed. -/
def isPassed : Outcome → Bool
  | .passed => true
  | _ => false

/-- The word for an outcome. -/
def kind : Outcome → String
  | .passed => "passed"
  | .missingExpectation => "missing_expectation"
  | .mismatch _ => "output_mismatch"

/-- An outcome as a document. -/
def toJson (o : Outcome) : Json :=
  match o with
  | .mismatch diff => .object [("kind", .string o.kind), ("diff", .string diff)]
  | _ => .object [("kind", .string o.kind)]

end Outcome

/-- The outcome of a fixture with the fixture's paths. -/
structure FixtureReport where
  /-- The path of the source file. -/
  fixturePath : String
  /-- The path of the expected output. -/
  expectationPath : String
  /-- The fixture passed. -/
  passed : Bool
  /-- The outcome. -/
  outcome : Outcome
  deriving DecidableEq, Repr

namespace FixtureReport

/-- The report on a fixture. -/
def of (f : Fixture) (outcome : Outcome) : FixtureReport :=
  ⟨f.path.normalized, f.expectation.normalized, outcome.isPassed, outcome⟩

/-- A report as a document. -/
def toJson (r : FixtureReport) : Json :=
  .object
    [("fixture_path", .string r.fixturePath), ("expectation_path", .string r.expectationPath),
      ("passed", .bool r.passed), ("outcome", r.outcome.toJson)]

end FixtureReport

/-! ### Summaries -/

/-- The reports of a run, counted. -/
structure Summary where
  /-- The number of fixtures. -/
  numRun : Nat
  /-- The number of fixtures that did not pass. -/
  numFailed : Nat
  /-- The reports, in order. -/
  reports : List FixtureReport
  deriving DecidableEq, Repr

namespace Summary

/-- The summary of no reports. -/
def empty : Summary := ⟨0, 0, []⟩

/-- The summary with one more report. -/
def record (s : Summary) (r : FixtureReport) : Summary :=
  ⟨s.numRun + 1, if r.passed then s.numFailed else s.numFailed + 1, s.reports ++ [r]⟩

/-- All fixtures passed. -/
def passed (s : Summary) : Bool := s.numFailed == 0

/-- The exit code of a run with a summary. -/
def exitCode (s : Summary) : Nat := if s.passed then 0 else 1

end Summary

/-! ### Documents -/

/-- A run as a document. -/
structure RunReport where
  /-- The time of the report, in seconds since 1970. -/
  generatedAt : Nat
  /-- All fixtures passed. -/
  passed : Bool
  /-- The path of the interpreter. -/
  executablePath : String
  /-- The path of the sources. -/
  sourcesDir : String
  /-- The number of fixtures. -/
  numRun : Nat
  /-- The number of fixtures that did not pass. -/
  numFailed : Nat
  /-- The reports, in order. -/
  fixtures : List FixtureReport
  deriving DecidableEq, Repr

namespace RunReport

/-- The report on a run at a time. -/
def of (generatedAt : Nat) (executable sources : Path) (s : Summary) : RunReport :=
  ⟨generatedAt, s.passed, executable.normalized, sources.normalized, s.numRun, s.numFailed,
    s.reports⟩

/-- A report as a document. -/
def toJson (r : RunReport) : Json :=
  .object
    [("generated_at_unix_seconds", .number r.generatedAt), ("passed", .bool r.passed),
      ("executable_path", .string r.executablePath), ("sources_dir", .string r.sourcesDir),
      ("num_run", .number r.numRun), ("num_failed", .number r.numFailed),
      ("fixtures", .array (r.fixtures.map FixtureReport.toJson))]

/-- The text of a report. -/
def text (r : RunReport) : String := r.toJson.pretty

end RunReport

end Touchstone
