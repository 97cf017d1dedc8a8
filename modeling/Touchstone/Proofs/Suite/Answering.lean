import Touchstone.Proofs.Run.Stepping
import Touchstone.Proofs.Suite.Course

/-!
# Suites with an interpreter that only answers

An interpreter may depend on nothing but itself and its source file.  Then what comes of it is a function of
the path and the content of the source file, whatever was run before, and whatever the clock reads
when the interpreter is started and looked at, as long as the time limit is kept or not in the same
cases.  If the interpreter leaves the files alone, too, the run of a suite is a function of the
files, of the configuration and of the time of the report.

## Main definitions

* `Touchstone.Answering` : what comes of source files.
* `Touchstone.World.Answers` : the interpreter of a world depends on nothing but its source file.
* `Touchstone.Answering.suite` : the run of a suite with such an interpreter.

## Main results

* `Touchstone.World.Answers.runSuite_eq` : the run of a suite in a world that answers.
-/

namespace Touchstone

/-- What comes of a program on a source file under the time limit, by the path of the program, by
the program itself, and by the path and the content of the source file. -/
abbrev Answering :=
  Path → Except OsError Node → Path → Except OsError (List UInt8) → Except Stop Invocation

/-- The interpreter of a world leaves the files alone, and depends on itself and its source file
alone, unless the system cannot start it.  The occasion is not part of the answer, and neither are
the readings of the clock: two worlds answer alike if they judge alike whether the time limit is
kept. -/
structure World.Answers (w : World) (limit : Option Duration) (answer : Answering) : Prop where
  quiet : w.Quiet
  refused : ∀ {occasion fs program source e}, startFault? fs program = some e →
    w.launch occasion fs program source = .error e
  answered : ∀ {occasion fs program} (f : Fixture), startFault? fs program = none →
    processExecutor (w.launch occasion) fs program limit f =
      answer program (fs.target program) f.path (fs.contentOf f.path)

namespace Answering

variable (answer : Answering) (fs : FileSystem)

/-- The executor that gives the answers. -/
def executor (program : Path) : Executor := fun f =>
  match startFault? fs program with
  | some e => .error (.failure (.startInterpreter program e))
  | none => answer program (fs.target program) f.path (fs.contentOf f.path)

/-- The run of the fixtures of a plan. -/
def fixtures (p : Plan) : Run Summary :=
  Run.fixtures fs (answer.executor fs p.executable) p.sources p.filter

/-- The run of a suite. -/
def suite (now : Nat) (c : Config) : SuiteRun :=
  match plan fs c with
  | .error stop => ⟨[], [], .error stop, fs⟩
  | .ok p =>
    let run := answer.fixtures fs p
    match run.result with
    | .error stop => ⟨run.events, run.invoked, .error stop, fs⟩
    | .ok s =>
      let done := report fs now c p s
      ⟨run.events, run.invoked, done.1, done.2⟩

variable {answer fs} {now : Nat} {c : Config} {p : Plan} {s : Summary} {stop : Stop}

theorem suite_of_rejected (rejects : plan fs c = .error stop) :
    answer.suite fs now c = ⟨[], [], .error stop, fs⟩ := by
  simp only [suite, rejects]

theorem suite_of_stopped (plans : plan fs c = .ok p)
    (stops : (answer.fixtures fs p).result = .error stop) : answer.suite fs now c =
      ⟨(answer.fixtures fs p).events, (answer.fixtures fs p).invoked, .error stop, fs⟩ := by
  simp only [suite, plans, stops]

theorem suite_of_runs (plans : plan fs c = .ok p) (runs : (answer.fixtures fs p).result = .ok s) :
    answer.suite fs now c = ⟨(answer.fixtures fs p).events, (answer.fixtures fs p).invoked,
      (report fs now c p s).1, (report fs now c p s).2⟩ := by
  simp only [suite, plans, runs]

end Answering

namespace World.Answers

variable {w : World} {c : Config} {answer : Answering} {limit : Option Duration}

theorem onlyAnswers (answers : w.Answers limit answer) (fs : FileSystem) (program : Path) :
    OnlyAnswers (w.interpreter program limit) (answer.executor fs program) fs := by
  intro turn f
  rw [World.interpreter, answers.quiet, Answering.executor]
  cases hfault : startFault? fs program with
  | some e => rw [processExecutor, answers.refused hfault]
  | none => rw [answers.answered f hfault]

/-- The run of a suite in a world that answers. -/
theorem runSuite_eq (answers : w.Answers c.timeout answer) :
    runSuite w c = answer.suite w.files w.now c := by
  cases plans : plan w.files c with
  | error stop =>
    rw [Answering.suite_of_rejected plans, runSuite, Reporter.suite, plans]
    rfl
  | ok p =>
    have hrun : Reporter.memory.fixturesOf w c p [] =
        (answer.fixtures w.files p).onto (.start [] w.files) :=
      Reporter.fixtures_memory (answers.onlyAnswers w.files p.executable) p.sources p.filter
    rw [runSuite, suite_of_plan plans, hrun, Run.onto]
    cases runs : (answer.fixtures w.files p).result with
    | error stop =>
      rw [Answering.suite_of_stopped plans runs]
      rfl
    | ok s =>
      rw [Answering.suite_of_runs plans runs]
      rfl

end World.Answers

end Touchstone
