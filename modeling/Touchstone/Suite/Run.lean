import Touchstone.Comparison
import Touchstone.Discovery
import Touchstone.Reporter

/-!
# Running fixtures

The fixtures of a directory are run one after the other.  A fixture without an expected output is
recorded without the interpreter; the others are run and compared.  A run ends early when an
expected output cannot be read, when the interpreter cannot be run, and when it does not succeed.

A run goes from one state to the next: its reporter is told what happens, fixtures are handed to the
interpreter, and the interpreter may change the files.  So an expected output is looked for when the
turn comes to its fixture, and not before.

Where the interpreter only answers and the reporter only keeps the events, a run consists of these
events, of the fixtures that are handed to the interpreter, and of its result.

## Main definitions

* `Touchstone.Interpreter` : how a fixture is run.
* `Touchstone.Progress` : the state of a run.
* `Touchstone.verdict` : what the answer of the interpreter makes of a fixture.
* `Touchstone.Reporter.judge` : run one fixture and compare its output.
* `Touchstone.Reporter.fixtures` : run the fixtures of a directory.
* `Touchstone.Executor` : how a fixture is run by an interpreter that only answers.
* `Touchstone.Run` : a run with such an interpreter, and what it leaves.
-/

namespace Touchstone

/-- How the interpreter is run on a fixture.  It finds the files as they are, and has been run on a
number of fixtures before; it gives an answer and leaves the files as it likes. -/
abbrev Interpreter := FileSystem → Nat → Fixture → Except Stop Invocation × FileSystem

/-- The state of a run. -/
structure Progress (σ : Type) where
  /-- What the reporter holds. -/
  held : σ
  /-- The fixtures that were handed to the interpreter, in order. -/
  invoked : List Fixture
  /-- The files. -/
  files : FileSystem

namespace Progress

variable {σ : Type}

/-- The state before the first fixture. -/
def start (held : σ) (files : FileSystem) : Progress σ := ⟨held, [], files⟩

/-- Tell the reporter. -/
def tell (p : Progress σ) (news : σ → σ) : Progress σ := { p with held := news p.held }

/-- Hand a fixture to the interpreter. -/
def hand (p : Progress σ) (run : Interpreter) (f : Fixture) :
    Except Stop Invocation × Progress σ :=
  let done := run p.files p.invoked.length f
  (done.1, { p with invoked := p.invoked ++ [f], files := done.2 })

end Progress

/-- What the answer of the interpreter makes of a fixture with an expected output. -/
def verdict (f : Fixture) (expected : List Char) : Except Stop Invocation → Except Stop Outcome
  | .error stop => .error stop
  | .ok inv =>
    if inv.status.success then
      match compareOutput inv.stdout expected with
      | .same => .ok .passed
      | .differs diff => .ok (.mismatch diff)
    else .error (.failure (.interpreterFailed f.path inv.status inv.stderr))

namespace Reporter

variable {σ : Type}

/-- Tell what was made of a fixture, unless it ends the run. -/
def conclude (r : Reporter σ) (f : Fixture) (result : Except Stop Outcome) (p : Progress σ) :
    Except Stop Outcome × Progress σ :=
  match result with
  | .error stop => (.error stop, p)
  | .ok outcome => (.ok outcome, p.tell (r.outcome f outcome))

/-- Run one fixture and compare its output with the expected one. -/
def judge (r : Reporter σ) (run : Interpreter) (f : Fixture) (expected : List Char)
    (p : Progress σ) : Except Stop Outcome × Progress σ :=
  let done := (p.tell (r.started f)).hand run f
  r.conclude f (verdict f expected done.1) done.2

/-- Run one fixture of a directory. -/
def fixture (r : Reporter σ) (run : Interpreter) (f : Fixture) (p : Progress σ) :
    Except Stop Outcome × Progress σ :=
  if p.files.isFile f.expectation then
    match p.files.readText f.expectation with
    | .error e => (.error (.failure (.readExpectation f.expectation e)), p)
    | .ok expected => r.judge run f expected p
  else r.conclude f (.ok .missingExpectation) p

/-- Run fixtures in order, after those that the summary counts. -/
def remaining (r : Reporter σ) (run : Interpreter) (s : Summary) :
    List Fixture → Progress σ → Except Stop Summary × Progress σ
  | [], p => (.ok s, p.tell (r.finished s))
  | f :: rest, p =>
    match r.fixture run f p with
    | (.error stop, p) => (.error stop, p)
    | (.ok outcome, p) => r.remaining run (s.record (.of f outcome)) rest p

/-- Run the fixtures of a directory. -/
def fixtures (r : Reporter σ) (run : Interpreter) (sources : Path) (filter : Filter)
    (p : Progress σ) : Except Stop Summary × Progress σ :=
  match Discovery.discover p.files sources filter with
  | .error e => (.error (.failure e), p)
  | .ok found => r.remaining run .empty found p

end Reporter

/-! ### Interpreters that only answer -/

/-- How a fixture is run by an interpreter that only answers. -/
abbrev Executor := Fixture → Except Stop Invocation

/-- The interpreter that answers as an executor does and leaves the files alone. -/
def Executor.interpreter (exec : Executor) : Interpreter := fun fs _ f => (exec f, fs)

/-- A run: what it tells, what it hands to the interpreter, and its result. -/
structure Run (α : Type) where
  /-- The events, in order. -/
  events : List Event
  /-- The fixtures that were handed to the interpreter, in order. -/
  invoked : List Fixture
  /-- The result. -/
  result : Except Stop α

namespace Run

/-- The run that came to a result, and to a state. -/
def of {α : Type} (done : Except Stop α × Progress (List Event)) : Run α :=
  ⟨done.2.held, done.2.invoked, done.1⟩

/-- Run one fixture and compare its output with the expected one. -/
def judge (exec : Executor) (f : Fixture) (expected : List Char) : Run Outcome :=
  of (Reporter.memory.judge exec.interpreter f expected (.start [] .empty))

/-- Run one fixture of a directory. -/
def fixture (fs : FileSystem) (exec : Executor) (f : Fixture) : Run Outcome :=
  of (Reporter.memory.fixture exec.interpreter f (.start [] fs))

/-- Run fixtures in order, after those that the summary counts. -/
def remaining (fs : FileSystem) (exec : Executor) (s : Summary) (found : List Fixture) :
    Run Summary :=
  of (Reporter.memory.remaining exec.interpreter s found (.start [] fs))

/-- Run the fixtures of a directory. -/
def fixtures (fs : FileSystem) (exec : Executor) (sources : Path) (filter : Filter) :
    Run Summary :=
  of (Reporter.memory.fixtures exec.interpreter sources filter (.start [] fs))

end Run

end Touchstone
