import Mathlib
import Touchstone.Proofs.Run.Stepping

/-!
# The course of a run

A run takes its fixtures one after the other.  Each fixture that does not end the run leaves an
outcome; the fixture and its outcome are a round.  Every run is a list of rounds, after which it is
either finished or stopped by the next fixture, and its events, its invocations and its result
follow from the rounds and from that fixture.

## Main definitions

* `Touchstone.Run.HasOutcome` : the outcome of a fixture, judged from the files and the interpreter.
* `Touchstone.Run.StopsWith` : a fixture that ends the run.
* `Touchstone.Run.Course` : what a run leaves, by its rounds.

## Main results

* `Touchstone.Run.fixture_of_hasOutcome`, `Touchstone.Run.fixture_of_stopsWith` : what one fixture
  contributes.
* `Touchstone.Run.course_remaining` : every run has a course.
-/

namespace Touchstone

theorem ExitStatus.success_iff (s : ExitStatus) : s.success = true ↔ s = .code 0 := by
  cases s <;> simp [ExitStatus.success]

namespace Run

/-- The expected output of a fixture is a file that can be read. -/
def hasExpectation (fs : FileSystem) (f : Fixture) : Bool :=
  fs.isFile f.expectation && (fs.readText f.expectation).toBool

/-- The interpreter succeeds on a fixture with an expectation: `text` is the expected output, `inv`
what the interpreter gave. -/
structure Answers (fs : FileSystem) (exec : Executor) (f : Fixture) (text : List Char)
    (inv : Invocation) : Prop where
  isFile : fs.isFile f.expectation = true
  readText : fs.readText f.expectation = .ok text
  answer : exec f = .ok inv
  status : inv.status = .code 0

/-- The outcome that a fixture leaves when it does not end the run. -/
inductive HasOutcome (fs : FileSystem) (exec : Executor) (f : Fixture) : Outcome → Prop
  | missing (noFile : fs.isFile f.expectation = false) : HasOutcome fs exec f .missingExpectation
  | passed {text inv} (h : Answers fs exec f text inv)
      (same : Text.trim inv.stdout = Text.trim text) : HasOutcome fs exec f .passed
  | mismatch {text inv} (h : Answers fs exec f text inv)
      (differs : Text.trim inv.stdout ≠ Text.trim text) :
      HasOutcome fs exec f (.mismatch (Diff.unified (Text.trim inv.stdout) (Text.trim text)))

/-- What a fixture ends the run with, if it ends the run: its expectation cannot be read, or the
interpreter cannot be run on it, or the interpreter does not succeed. -/
inductive StopsWith (fs : FileSystem) (exec : Executor) (f : Fixture) : Stop → Prop
  | unreadable {e} (isFile : fs.isFile f.expectation = true)
      (unread : fs.readText f.expectation = .error e) :
      StopsWith fs exec f (.failure (.readExpectation f.expectation e))
  | refused {text stop} (isFile : fs.isFile f.expectation = true)
      (readText : fs.readText f.expectation = .ok text) (answer : exec f = .error stop) :
      StopsWith fs exec f stop
  | failed {text inv} (isFile : fs.isFile f.expectation = true)
      (readText : fs.readText f.expectation = .ok text) (answer : exec f = .ok inv)
      (status : inv.status ≠ .code 0) :
      StopsWith fs exec f (.failure (.interpreterFailed f.path inv.status inv.stderr))

/-- The events of a fixture with an outcome. -/
def block (f : Fixture) : Outcome → List Event
  | .missingExpectation => [.missingExpectation f.path f.expectation]
  | .passed => [.started f.path, .passed f.path]
  | .mismatch diff => [.started f.path, .mismatch f.path diff]

/-- The events of a fixture that ends the run: it is started if its expectation can be read. -/
def lastEvents (fs : FileSystem) (f : Fixture) : List Event :=
  if hasExpectation fs f then [.started f.path] else []

variable {fs : FileSystem} {exec : Executor} {f : Fixture}

/-! ### One fixture -/

theorem hasExpectation_of_readText {text : List Char} (isFile : fs.isFile f.expectation = true)
    (readText : fs.readText f.expectation = .ok text) : hasExpectation fs f = true := by
  simp [hasExpectation, isFile, readText, Except.toBool]

/-- A fixture with an outcome tells the block of that outcome, and is handed to the interpreter if
its expectation can be read. -/
theorem fixture_of_hasOutcome {o : Outcome} (h : HasOutcome fs exec f o) :
    fixture fs exec f = ⟨block f o, [f].filter (hasExpectation fs), .ok o⟩ := by
  cases h with
  | missing noFile => simp [fixture_eq, newsOf, hasExpectation, noFile, block]
  | passed h same =>
    have hexp := hasExpectation_of_readText h.isFile h.readText
    have hsuc := (ExitStatus.success_iff _).2 h.status
    simp [fixture_eq, judge_eq, verdict, newsOf, h.isFile, h.readText, h.answer, hsuc,
      compareOutput, same, hexp, block]
  | mismatch h differs =>
    have hexp := hasExpectation_of_readText h.isFile h.readText
    have hsuc := (ExitStatus.success_iff _).2 h.status
    simp [fixture_eq, judge_eq, verdict, newsOf, h.isFile, h.readText, h.answer, hsuc,
      compareOutput, differs, hexp, block]

/-- A fixture that ends the run is started and handed to the interpreter if its expectation can be
read. -/
theorem fixture_of_stopsWith {stop : Stop} (h : StopsWith fs exec f stop) :
    fixture fs exec f = ⟨lastEvents fs f, [f].filter (hasExpectation fs), .error stop⟩ := by
  cases h with
  | unreadable isFile unread =>
    simp [fixture_eq, hasExpectation, isFile, unread, lastEvents, Except.toBool]
  | refused isFile readText answer =>
    have hexp := hasExpectation_of_readText isFile readText
    simp [fixture_eq, judge_eq, verdict, newsOf, isFile, readText, answer, hexp, lastEvents]
  | failed isFile readText answer status =>
    have hexp := hasExpectation_of_readText isFile readText
    have hsuc := mt (ExitStatus.success_iff _).1 status
    simp [fixture_eq, judge_eq, verdict, newsOf, isFile, readText, answer, hsuc, hexp, lastEvents]

/-- Every fixture either leaves an outcome or ends the run. -/
theorem hasOutcome_or_stopsWith (fs : FileSystem) (exec : Executor) (f : Fixture) :
    (∃ o, HasOutcome fs exec f o) ∨ ∃ stop, StopsWith fs exec f stop := by
  cases isFile : fs.isFile f.expectation with
  | false => exact .inl ⟨_, .missing isFile⟩
  | true =>
    cases readText : fs.readText f.expectation with
    | error e => exact .inr ⟨_, .unreadable isFile readText⟩
    | ok text =>
      cases answer : exec f with
      | error stop => exact .inr ⟨_, .refused isFile readText answer⟩
      | ok inv =>
        by_cases status : inv.status = .code 0
        · have h : Answers fs exec f text inv := ⟨isFile, readText, answer, status⟩
          by_cases same : Text.trim inv.stdout = Text.trim text
          · exact .inl ⟨_, .passed h same⟩
          · exact .inl ⟨_, .mismatch h same⟩
        · exact .inr ⟨_, .failed isFile readText answer status⟩

/-- A fixture that leaves an outcome does not end the run. -/
theorem HasOutcome.not_stopsWith {o : Outcome} (h : HasOutcome fs exec f o) (stop : Stop) :
    ¬ StopsWith fs exec f stop := by
  intro hs
  have heq := (fixture_of_hasOutcome h).symm.trans (fixture_of_stopsWith hs)
  simp at heq

/-- A fixture leaves at most one outcome. -/
theorem HasOutcome.unique {o o' : Outcome} (h : HasOutcome fs exec f o)
    (h' : HasOutcome fs exec f o') : o = o' := by
  have heq := (fixture_of_hasOutcome h).symm.trans (fixture_of_hasOutcome h')
  simp only [mk.injEq, Except.ok.injEq] at heq
  exact heq.2.2

/-! ### The whole run -/

/-- A fixture that was run, with its outcome. -/
abbrev Round := Fixture × Outcome

/-- The events of some rounds, one block after the other. -/
def told (rounds : List Round) : List Event :=
  rounds.flatMap fun r => block r.1 r.2

@[simp] theorem told_nil : told [] = [] := rfl

@[simp] theorem told_cons (r : Round) (rounds : List Round) :
    told (r :: rounds) = block r.1 r.2 ++ told rounds := rfl

/-- The report on a round. -/
def Round.report (r : Round) : FixtureReport := .of r.1 r.2

/-- The summary with the reports of further rounds. -/
def afterRounds (s : Summary) (rounds : List Round) : Summary :=
  ⟨s.numRun + rounds.length, s.numFailed + rounds.countP (!·.2.isPassed),
    s.reports ++ rounds.map Round.report⟩

theorem afterRounds_nil (s : Summary) : afterRounds s [] = s := by
  simp [afterRounds]

theorem afterRounds_cons (s : Summary) (r : Round) (rounds : List Round) :
    afterRounds s (r :: rounds) = afterRounds (s.record r.report) rounds := by
  cases h : r.2.isPassed <;>
    simp [afterRounds, Summary.record, Round.report, FixtureReport.of, h] <;> omega

/-- What a run of the fixtures `found` leaves, when it starts after those that `s` counts. -/
inductive Course (fs : FileSystem) (exec : Executor) (s : Summary) (found : List Fixture) :
    Run Summary → Prop
  | finished {rounds : List Round} (outcomes : ∀ r ∈ rounds, HasOutcome fs exec r.1 r.2)
      (all : found = rounds.map Prod.fst) :
      Course fs exec s found
        ⟨told rounds ++ [.finished (afterRounds s rounds).numRun (afterRounds s rounds).numFailed],
          found.filter (hasExpectation fs), .ok (afterRounds s rounds)⟩
  | stopped {rounds : List Round} {f : Fixture} {rest : List Fixture} {stop : Stop}
      (outcomes : ∀ r ∈ rounds, HasOutcome fs exec r.1 r.2)
      (split : found = rounds.map Prod.fst ++ f :: rest) (last : StopsWith fs exec f stop) :
      Course fs exec s found
        ⟨told rounds ++ lastEvents fs f,
          (rounds.map Prod.fst ++ [f]).filter (hasExpectation fs), .error stop⟩

/-- A run begins with the rounds that its first fixtures leave. -/
theorem remaining_rounds {rounds : List Round}
    (h : ∀ r ∈ rounds, HasOutcome fs exec r.1 r.2) (s : Summary) (rest : List Fixture) :
    remaining fs exec s (rounds.map Prod.fst ++ rest) =
      ⟨told rounds ++ (remaining fs exec (afterRounds s rounds) rest).events,
        (rounds.map Prod.fst).filter (hasExpectation fs) ++
          (remaining fs exec (afterRounds s rounds) rest).invoked,
        (remaining fs exec (afterRounds s rounds) rest).result⟩ := by
  induction rounds generalizing s with
  | nil => simp [afterRounds_nil]
  | cons r rounds ih =>
    have hr := fixture_of_hasOutcome (h r List.mem_cons_self)
    have hrest := ih (fun q hq => h q (List.mem_cons_of_mem r hq)) (s.record r.report)
    simp only [List.map_cons, List.cons_append, remaining_cons, hr]
    rw [Round.report] at hrest
    rw [hrest, afterRounds_cons]
    simp [Round.report, List.filter_cons]
    split <;> simp

/-- A run ends at the first fixture that ends it. -/
theorem remaining_stopped {rounds : List Round}
    (h : ∀ r ∈ rounds, HasOutcome fs exec r.1 r.2) {stop : Stop} (last : StopsWith fs exec f stop)
    (s : Summary) (rest : List Fixture) :
    remaining fs exec s (rounds.map Prod.fst ++ f :: rest) =
      ⟨told rounds ++ lastEvents fs f,
        (rounds.map Prod.fst ++ [f]).filter (hasExpectation fs), .error stop⟩ := by
  rw [remaining_rounds h]
  simp [remaining_cons, fixture_of_stopsWith last]

/-- A run in which every fixture leaves an outcome is finished. -/
theorem remaining_finished {rounds : List Round}
    (h : ∀ r ∈ rounds, HasOutcome fs exec r.1 r.2) (s : Summary) :
    remaining fs exec s (rounds.map Prod.fst) =
      ⟨told rounds ++ [.finished (afterRounds s rounds).numRun (afterRounds s rounds).numFailed],
        (rounds.map Prod.fst).filter (hasExpectation fs), .ok (afterRounds s rounds)⟩ := by
  simpa [remaining_nil] using remaining_rounds h s []

/-- Fixtures leave outcomes up to the first one that ends the run, if there is one. -/
theorem exists_rounds (fs : FileSystem) (exec : Executor) (found : List Fixture) :
    ∃ rounds : List Round, (∀ r ∈ rounds, HasOutcome fs exec r.1 r.2) ∧
      (found = rounds.map Prod.fst ∨
        ∃ f rest stop, found = rounds.map Prod.fst ++ f :: rest ∧ StopsWith fs exec f stop) := by
  induction found with
  | nil => exact ⟨[], by simp⟩
  | cons f rest ih =>
    rcases hasOutcome_or_stopsWith fs exec f with ⟨o, ho⟩ | ⟨stop, hs⟩
    · obtain ⟨rounds, h, hsplit⟩ := ih
      refine ⟨(f, o) :: rounds, List.forall_mem_cons.2 ⟨ho, h⟩, ?_⟩
      simpa using hsplit
    · exact ⟨[], by simp, .inr ⟨f, rest, stop, rfl, hs⟩⟩

/-- Every run has a course. -/
theorem course_remaining (fs : FileSystem) (exec : Executor) (s : Summary) (found : List Fixture) :
    Course fs exec s found (remaining fs exec s found) := by
  obtain ⟨rounds, h, hall | ⟨f, rest, stop, hsplit, last⟩⟩ := exists_rounds fs exec found
  · subst hall
    rw [remaining_finished h]
    exact .finished h rfl
  · subst hsplit
    rw [remaining_stopped h last]
    exact .stopped h rfl last

/-- The run of a directory is the run of the fixtures found in it. -/
theorem fixtures_of_discover {sources : Path} {filter : Filter} {found : List Fixture}
    (h : Discovery.discover fs sources filter = .ok found) :
    fixtures fs exec sources filter = remaining fs exec .empty found := by
  rw [fixtures_eq, h]

/-! ### A sample suite -/

/-- A file in the directory `/s`. -/
def sampleFile (name text : String) : Location × Node :=
  ([Text.Utf8.encode "s".toList, Text.Utf8.encode name.toList],
    .file (Text.Utf8.encode text.toList) false)

/-- A suite of four fixtures, of which the second has no expectation. -/
def sampleFiles : FileSystem :=
  ⟨[([Text.Utf8.encode "s".toList], .directory), sampleFile "d.las" "", sampleFile "b.las" "",
    sampleFile "a.las" "", sampleFile "c.las" "", sampleFile "a_expected.txt" "42",
    sampleFile "c_expected.txt" "hello", sampleFile "d_expected.txt" "world"], []⟩

/-- The directory of the sample suite. -/
def sampleSources : Path := .ofString "/s"

/-- A fixture of the sample suite. -/
def sampleFixture (name : String) : Fixture :=
  ⟨.ofString ("/s/" ++ name ++ ".las"), Text.Utf8.encode (name ++ ".las").toList,
    .ofString ("/s/" ++ name ++ "_expected.txt")⟩

/-- An interpreter that writes `42` on the first sample fixture, and `world` on the others, where it
ends with a given status. -/
def sampleExecutor (status : ExitStatus) : Executor := fun f =>
  if f.fileName.head? = some 'a'.toUInt8 then .ok ⟨.code 0, "42\n".toList, []⟩
  else .ok ⟨status, "world".toList, []⟩

theorem discover_sample :
    Discovery.discover sampleFiles sampleSources .all =
      .ok [sampleFixture "a", sampleFixture "b", sampleFixture "c", sampleFixture "d"] := by
  cbv

/-- Whatever the status on the others, the first sample fixture passes. -/
theorem sample_passed (status : ExitStatus) :
    HasOutcome sampleFiles (sampleExecutor status) (sampleFixture "a") .passed := by
  have ha : Answers sampleFiles (sampleExecutor status) (sampleFixture "a") "42".toList
      ⟨.code 0, "42\n".toList, []⟩ := ⟨by cbv, by cbv, by cbv, rfl⟩
  exact .passed ha (by decide)

/-- The second sample fixture has no expectation. -/
theorem sample_missing (status : ExitStatus) :
    HasOutcome sampleFiles (sampleExecutor status) (sampleFixture "b") .missingExpectation :=
  .missing (by cbv)

end Run

end Touchstone
