import Touchstone.Suite.Run

/-!
# Runs step by step

The run of an interpreter that only answers can be taken up from any state: it adds its events to
those that are held and its fixtures to those that were handed over, and it leaves the files.  So it
can be described without a state, one fixture after the other.

## Main definitions

* `Touchstone.OnlyAnswers` : an interpreter answers as an executor does and leaves the files alone.
* `Touchstone.Run.onto` : a run that is taken up from a state.

## Main results

* `Touchstone.Run.judge_eq`, `Touchstone.Run.fixture_eq`, `Touchstone.Run.remaining_cons` : the
  steps of a run.
* `Touchstone.Reporter.fixtures_memory` : a run with an interpreter that only answers.
-/

namespace Touchstone

/-- On given files an interpreter answers as an executor does, whenever its turn comes, and leaves
the files alone. -/
def OnlyAnswers (run : Interpreter) (exec : Executor) (fs : FileSystem) : Prop :=
  ∀ turn f, run fs turn f = (exec f, fs)

theorem Executor.onlyAnswers (exec : Executor) (fs : FileSystem) :
    OnlyAnswers exec.interpreter exec fs := fun _ _ => rfl

/-- A run that is taken up from a state. -/
def Run.onto {α : Type} (r : Run α) (p : Progress (List Event)) :
    Except Stop α × Progress (List Event) :=
  (r.result, ⟨p.held ++ r.events, p.invoked ++ r.invoked, p.files⟩)

variable {run : Interpreter} {exec : Executor} {fs : FileSystem} {p : Progress (List Event)}
  {f : Fixture}

theorem Run.of_onto {α : Type} (r : Run α) : Run.of (r.onto (.start [] fs)) = r := rfl

/-! ### One fixture -/

/-- The events that tell what was made of a fixture. -/
def newsOf (f : Fixture) : Except Stop Outcome → List Event
  | .error _ => []
  | .ok .passed => [.passed f.path]
  | .ok .missingExpectation => [.missingExpectation f.path f.expectation]
  | .ok (.mismatch diff) => [.mismatch f.path diff]

theorem Reporter.conclude_memory (f : Fixture) (result : Except Stop Outcome)
    (p : Progress (List Event)) :
    memory.conclude f result p = (result, ⟨p.held ++ newsOf f result, p.invoked, p.files⟩) := by
  rcases result with stop | _ | _ | diff
  · simp only [conclude, newsOf, List.append_nil]
  all_goals rfl

theorem Reporter.started_memory (f : Fixture) (events : List Event) :
    memory.started f events = events ++ [.started f.path] := rfl

theorem Reporter.judge_memory (answers : OnlyAnswers run exec p.files) (expected : List Char) :
    memory.judge run f expected p =
      (Run.mk (.started f.path :: newsOf f (verdict f expected (exec f))) [f]
        (verdict f expected (exec f))).onto p := by
  simp only [judge, Progress.hand, Progress.tell, answers _ f, conclude_memory, Run.onto,
    started_memory, List.append_assoc, List.singleton_append]

/-- One fixture is started and handed to the interpreter, and what its answer makes of it is told.
-/
theorem Run.judge_eq (exec : Executor) (f : Fixture) (expected : List Char) :
    judge exec f expected = ⟨.started f.path :: newsOf f (verdict f expected (exec f)), [f],
      verdict f expected (exec f)⟩ := by
  rw [judge, Reporter.judge_memory (exec.onlyAnswers .empty), of_onto]

/-- A fixture without an expectation is recorded, one whose expectation cannot be read ends the run,
and any other is run. -/
theorem Reporter.fixture_memory_eq (answers : OnlyAnswers run exec p.files) :
    memory.fixture run f p =
      (if p.files.isFile f.expectation then
        match p.files.readText f.expectation with
        | .error e => Run.mk [] [] (.error (.failure (.readExpectation f.expectation e)))
        | .ok expected => Run.judge exec f expected
      else ⟨newsOf f (.ok .missingExpectation), [], .ok .missingExpectation⟩).onto p := by
  rw [fixture, conclude_memory]
  split
  · cases p.files.readText f.expectation with
    | error e => simp only [Run.onto, List.append_nil]
    | ok expected => simp only [judge_memory answers, Run.judge_eq]
  · simp only [Run.onto, List.append_nil]

theorem Run.fixture_eq (fs : FileSystem) (exec : Executor) (f : Fixture) :
    fixture fs exec f =
      if fs.isFile f.expectation then
        match fs.readText f.expectation with
        | .error e => ⟨[], [], .error (.failure (.readExpectation f.expectation e))⟩
        | .ok expected => judge exec f expected
      else ⟨newsOf f (.ok .missingExpectation), [], .ok .missingExpectation⟩ := by
  rw [fixture, Reporter.fixture_memory_eq (exec.onlyAnswers fs), of_onto]
  rfl

theorem Reporter.fixture_memory (answers : OnlyAnswers run exec p.files) :
    memory.fixture run f p = (Run.fixture p.files exec f).onto p := by
  rw [fixture_memory_eq answers, Run.fixture_eq]

/-! ### The whole run -/

theorem Reporter.remaining_memory (answers : OnlyAnswers run exec p.files) (s : Summary)
    (found : List Fixture) :
    memory.remaining run s found p = (Run.remaining p.files exec s found).onto p := by
  -- both runs are taken up from the state after the first fixture, the second one from its own
  induction found generalizing run p s with
  | nil =>
    simp only [remaining, Run.remaining, Run.onto, Run.of, Progress.tell, Progress.start, memory,
      List.nil_append, List.append_nil]
  | cons f rest ih =>
    have hown := Executor.onlyAnswers exec p.files
    rw [remaining, fixture_memory answers, Run.remaining, remaining,
      fixture_memory (p := .start [] p.files) hown]
    cases hresult : (Run.fixture p.files exec f).result with
    | error stop => simp only [Run.onto, hresult, Progress.start, Run.of, List.nil_append]
    | ok outcome =>
      have hlater := ih (p := ((Run.fixture p.files exec f).onto p).2) answers
      have hlater' := ih (p := ((Run.fixture p.files exec f).onto (.start [] p.files)).2) hown
      simp only [Run.onto, Progress.start, List.nil_append] at hlater hlater'
      simp only [Run.onto, hresult, Progress.start, List.nil_append, hlater, hlater', Run.of,
        List.append_assoc]

theorem Run.remaining_nil (fs : FileSystem) (exec : Executor) (s : Summary) :
    remaining fs exec s [] = ⟨[.finished s.numRun s.numFailed], [], .ok s⟩ := rfl

/-- A run goes on after its first fixture, unless that ends it. -/
theorem Run.remaining_cons (fs : FileSystem) (exec : Executor) (s : Summary) (f : Fixture)
    (rest : List Fixture) :
    remaining fs exec s (f :: rest) =
      match (fixture fs exec f).result with
      | .error stop => ⟨(fixture fs exec f).events, (fixture fs exec f).invoked, .error stop⟩
      | .ok outcome =>
        let later := remaining fs exec (s.record (.of f outcome)) rest
        ⟨(fixture fs exec f).events ++ later.events, (fixture fs exec f).invoked ++ later.invoked,
          later.result⟩ := by
  have hown := Executor.onlyAnswers exec fs
  rw [remaining, Reporter.remaining, Reporter.fixture_memory (p := .start [] fs) hown]
  cases hresult : (fixture fs exec f).result with
  | error stop => simp only [onto, hresult, Progress.start, of, List.nil_append]
  | ok outcome =>
    have hlater := Reporter.remaining_memory (p := ((fixture fs exec f).onto (.start [] fs)).2) hown
    simp only [onto, Progress.start, List.nil_append] at hlater
    simp only [onto, hresult, Progress.start, List.nil_append, hlater, of]

theorem Run.fixtures_eq (fs : FileSystem) (exec : Executor) (sources : Path) (filter : Filter) :
    fixtures fs exec sources filter =
      match Discovery.discover fs sources filter with
      | .error e => ⟨[], [], .error (.failure e)⟩
      | .ok found => remaining fs exec .empty found := by
  rw [fixtures, Reporter.fixtures, Progress.start]
  cases Discovery.discover fs sources filter <;> rfl

/-- An interpreter that only answers is run as the executor whose answers it gives. -/
theorem Reporter.fixtures_memory (answers : OnlyAnswers run exec p.files) (sources : Path)
    (filter : Filter) :
    memory.fixtures run sources filter p =
      (Run.fixtures p.files exec sources filter).onto p := by
  rw [fixtures, Run.fixtures_eq]
  cases Discovery.discover p.files sources filter with
  | error e => simp only [Run.onto, List.append_nil]
  | ok found => exact remaining_memory answers .empty found

end Touchstone
