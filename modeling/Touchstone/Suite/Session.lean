import Touchstone.FileSystem.Change
import Touchstone.Suite.Interpreter

/-!
# Running a suite

A suite is run as a configuration says: the paths are checked, the filter is read, the fixtures are
run, and the report is written if one is asked for.  The runner itself changes the file system by
the report alone; what the interpreter does to it is part of the surroundings.

## Main definitions

* `Touchstone.Config` : what is asked for.
* `Touchstone.World` : the surroundings of a run.
* `Touchstone.writeReport` : write a report.
* `Touchstone.Reporter.suite` : run a suite under a reporter.
* `Touchstone.runSuite` : run a suite and keep the events.
-/

namespace Touchstone

/-- What is asked of a run. -/
structure Config where
  /-- The path of the interpreter. -/
  executable : Path
  /-- The path of the sources. -/
  sources : Path
  /-- The glob pattern of the fixtures to run. -/
  filter : Option String
  /-- The time limit for each fixture. -/
  timeout : Option Duration
  /-- The path of the report. -/
  report : Option Path
  deriving DecidableEq, Repr

/-- The occasion on which a program is started.  Whatever else the program depends on, as the time
or chance, depends on how many were started before it. -/
structure Occasion where
  /-- The log setting, which the program finds in its environment. -/
  setting : Option String
  /-- The number of programs that were started before. -/
  turn : Nat
  deriving DecidableEq, Repr

/-- The surroundings of a run. -/
structure World where
  /-- The file system. -/
  files : FileSystem
  /-- What the interpreter does on source files. -/
  launch : Occasion → Launcher
  /-- The files that the interpreter leaves. -/
  leave : Occasion → FileSystem → Path → Path → FileSystem
  /-- The log setting. -/
  setting : Option String
  /-- The place of the device that is the output of the runner, if its output is a device. -/
  output : Location
  /-- The time, in seconds since 1970. -/
  now : Nat

/-- The interpreter `program` of a world. -/
def World.interpreter (w : World) (program : Path) (limit : Option Duration) : Interpreter :=
  fun fs turn f =>
    (processExecutor (w.launch ⟨w.setting, turn⟩) fs program limit f,
      w.leave ⟨w.setting, turn⟩ fs program f.path)

/-- What a run of a suite leaves. -/
structure SuiteRun where
  /-- The events, in order. -/
  events : List Event
  /-- The fixtures that were handed to the interpreter, in order. -/
  invoked : List Fixture
  /-- The result. -/
  result : Except Stop Summary
  /-- The file system after the run. -/
  files : FileSystem

/-- The path of the interpreter, if it leads to a file. -/
def resolveExecutable (fs : FileSystem) (p : Path) : Except Failure Path :=
  match fs.canonical p with
  | .error _ => .error (.interpreterNotFound p)
  | .ok resolved =>
    if fs.isFile resolved then .ok resolved else .error (.interpreterNotFound p)

/-- The path of the sources, if it leads to a directory. -/
def resolveSources (fs : FileSystem) (p : Path) : Except Failure Path :=
  match fs.canonical p with
  | .error _ => .error (.sourcesNotFound p)
  | .ok resolved =>
    if fs.isDirectory resolved then .ok resolved else .error (.sourcesNotFound resolved)

/-- Write a report to a path, in a directory that is made if it is missing. -/
def writeReport (fs : FileSystem) (p : Path) (r : RunReport) : Except Failure Unit × FileSystem :=
  let parent := p.parent?.getD ⟨[]⟩
  match fs.makeDirectories parent with
  | (.error e, fs) => (.error (.reportDirectory parent e), fs)
  | (.ok (), fs) =>
    match fs.writeFile p (Text.Utf8.encode r.text.toList) with
    | (.error e, fs) => (.error (.writeReport p e), fs)
    | (.ok (), fs) => (.ok (), fs)

/-- What a configuration asks for, once its paths and its filter have been checked. -/
structure Plan where
  /-- The canonical path of the interpreter. -/
  executable : Path
  /-- The canonical path of the sources. -/
  sources : Path
  /-- The filter. -/
  filter : Filter

/-- Check the paths and the filter of a configuration, in this order. -/
def plan (fs : FileSystem) (c : Config) : Except Stop Plan :=
  match resolveExecutable fs c.executable with
  | .error e => .error (.failure e)
  | .ok executable =>
    match resolveSources fs c.sources with
    | .error e => .error (.failure e)
    | .ok sources =>
      match Filter.ofGlob? c.filter with
      | .error stop => .error stop
      | .ok filter => .ok ⟨executable, sources, filter⟩

/-- Write the report of a complete run, if one is asked for. -/
def report (fs : FileSystem) (now : Nat) (c : Config) (p : Plan) (s : Summary) :
    Except Stop Summary × FileSystem :=
  match c.report with
  | none => (.ok s, fs)
  | some path =>
    match writeReport fs path (.of now p.executable p.sources s) with
    | (.error e, fs) => (.error (.failure e), fs)
    | (.ok (), fs) => (.ok s, fs)

/-- Run a suite under a reporter. -/
def Reporter.suite {σ : Type} (r : Reporter σ) (w : World) (c : Config) (held : σ) :
    Except Stop Summary × Progress σ :=
  match plan w.files c with
  | .error stop => (.error stop, .start held w.files)
  | .ok p =>
    match r.fixtures (w.interpreter p.executable c.timeout) p.sources p.filter
      (.start held w.files) with
    | (.error stop, after) => (.error stop, after)
    | (.ok s, after) =>
      let done := report after.files w.now c p s
      (done.1, { after with files := done.2 })

/-- Run a suite and keep the events. -/
def runSuite (w : World) (c : Config) : SuiteRun :=
  let done := Reporter.memory.suite w c []
  ⟨done.2.held, done.2.invoked, done.1, done.2.files⟩

end Touchstone
