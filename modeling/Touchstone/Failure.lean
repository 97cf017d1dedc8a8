import Touchstone.Diagnostic
import Touchstone.Duration
import Touchstone.Glob.Parser
import Touchstone.Invocation
import Touchstone.OsError
import Touchstone.Path
import Touchstone.Text.Blank

/-!
# Failures of a run

A run of a suite ends early when the request is wrong, when the system fails, or when the
interpreter fails.  Each cause is a constructor; its message, its category and its code follow from
it.

Two causes are beyond that: a filter that is nested too deeply and a deadline that the clock cannot
reach make the runner crash.  And a runner that waits for something that never comes does not go on.

## Main definitions

* `Touchstone.Failure` : the cause of a failed run.
* `Touchstone.Failure.diagnostic` : the diagnostic about a cause.
* `Touchstone.Crash`, `Touchstone.Stop` : what keeps a run from going on.
-/

namespace Touchstone

/-- The cause of a failed run. -/
inductive Failure where
  /-- The interpreter's path leads to no file. -/
  | interpreterNotFound (path : Path)
  /-- The path of the sources leads to no directory. -/
  | sourcesNotFound (path : Path)
  /-- The filter is no glob pattern. -/
  | invalidFilter (pattern : String) (error : Glob.Error)
  /-- The directory of the sources cannot be read. -/
  | readDirectory (path : Path) (error : OsError)
  /-- An expected output cannot be read. -/
  | readExpectation (path : Path) (error : OsError)
  /-- The interpreter cannot be started. -/
  | startInterpreter (path : Path) (error : OsError)
  /-- The end of the interpreter cannot be awaited. -/
  | awaitInterpreter (fixture : Path) (error : OsError)
  /-- What the interpreter writes cannot be read. -/
  | captureOutput (fixture : Path) (error : OsError)
  /-- The interpreter did not succeed. -/
  | interpreterFailed (fixture : Path) (status : ExitStatus) (stderr : List Char)
  /-- The interpreter did not end in time. -/
  | timedOut (fixture : Path) (limit : Duration)
  /-- The directory of the report cannot be made. -/
  | reportDirectory (path : Path) (error : OsError)
  /-- The report cannot be put into text. -/
  | encodeReport (path : Path) (error : OsError)
  /-- The report cannot be written. -/
  | writeReport (path : Path) (error : OsError)
  deriving DecidableEq, Repr

namespace Failure

/-- A message about a path and an error of the system. -/
def about (action : String) (path : Path) (error : OsError) : String :=
  action ++ " '" ++ path.display ++ "': " ++ error.message

/-- The wording of a cause. -/
def message : Failure → String
  | .interpreterNotFound path =>
    "the provided path for the laszlo interpreter doesn't seem to specify an existing file " ++
      "(file not found): '" ++ path.display ++ "'"
  | .sourcesNotFound path => "laszlo sources directory not found at '" ++ path.display ++ "'"
  | .invalidFilter pattern error =>
    "invalid fixture filter '" ++ pattern ++ "': " ++ error.message
  | .readDirectory path error => about "failed to read directory" path error
  | .readExpectation path error => about "failed to read expected output" path error
  | .startInterpreter path error => about "failed to start the laszlo interpreter" path error
  | .awaitInterpreter fixture error =>
    about "failed to wait for the laszlo interpreter on" fixture error
  | .captureOutput fixture error =>
    about "failed to capture interpreter output for" fixture error
  | .interpreterFailed fixture status stderr =>
    "failed to execute the laszlo interpreter on '" ++ fixture.display ++ "': " ++
      status.message ++ "\n" ++ String.ofList (Text.trimEnd stderr)
  | .timedOut fixture limit =>
    "the laszlo interpreter did not finish '" ++ fixture.display ++ "' within " ++
      limit.display ++ "s and was killed"
  | .reportDirectory path error => about "failed to create report directory" path error
  | .encodeReport path error => about "failed to serialize report" path error
  | .writeReport path error => about "failed to write report" path error

/-- The category of a cause. -/
def category : Failure → Category
  | .interpreterNotFound _ | .sourcesNotFound _ => .pathNotFound
  | .invalidFilter _ _ => .usage
  | .readDirectory _ _ | .readExpectation _ _ | .startInterpreter _ _ | .awaitInterpreter _ _
  | .captureOutput _ _ | .reportDirectory _ _ | .writeReport _ _ => .ioSystem
  | .interpreterFailed _ _ _ | .timedOut _ _ => .executorCrash
  | .encodeReport _ _ => .internal

/-- The code of a cause. -/
def code : Failure → String
  | .interpreterNotFound _ => "INPUT.EXECUTABLE_NOT_FOUND"
  | .sourcesNotFound _ => "INPUT.SOURCES_DIR_NOT_FOUND"
  | .invalidFilter _ _ => "INPUT.FILTER_GLOB"
  | .readDirectory _ _ => "IO.SOURCES_DIRECTORY"
  | .readExpectation _ _ => "IO.EXPECTATION_READ"
  | .startInterpreter _ _ => "IO.EXECUTOR_SPAWN"
  | .awaitInterpreter _ _ | .captureOutput _ _ => "IO.EXECUTOR_PROCESS"
  | .interpreterFailed _ _ _ => "RUN.EXECUTOR_EXIT"
  | .timedOut _ _ => "RUN.EXECUTOR_TIMEOUT"
  | .reportDirectory _ _ | .writeReport _ _ => "IO.REPORT_FILESYSTEM"
  | .encodeReport _ _ => "SYS.REPORT_SERIALIZE"

/-- The diagnostic about a cause. -/
def diagnostic (f : Failure) : Diagnostic := ⟨f.category, f.code, f.message⟩

end Failure

/-- A fault that the runner does not survive. -/
inductive Crash where
  /-- A filter is nested too deeply to be used. -/
  | filterTooDeep
  /-- A deadline lies beyond the clock. -/
  | deadlineBeyondClock
  deriving DecidableEq, Repr

/-- The wording of a crash. -/
def Crash.message : Crash → String
  | .filterTooDeep => "regex compilation shouldn't fail"
  | .deadlineBeyondClock => "overflow when adding duration to instant"

/-- What keeps a run from going on. -/
inductive Stop where
  /-- A failure, which is reported. -/
  | failure (cause : Failure)
  /-- A crash of the runner. -/
  | crash (cause : Crash)
  /-- The runner waits for ever. -/
  | hang
  deriving DecidableEq, Repr

end Touchstone
