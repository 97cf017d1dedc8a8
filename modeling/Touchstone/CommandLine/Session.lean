import Touchstone.CommandLine.Parse
import Touchstone.Log.Reporter
import Touchstone.Log.Selection

/-!
# Running a command line

A command line is read and followed.  Texts that are asked for go to the output; everything else
goes to the log: what happens to each fixture, the report when it is written, and the error that
ends a run.  A report can be asked for on the device that is the output, and then it goes there.

## Main definitions

* `Touchstone.CommandLine.Answer` : what a command line leaves.
* `Touchstone.CommandLine.follow` : follow a request.
* `Touchstone.CommandLine.answer` : run a command line.
* `Touchstone.CommandLine.Answer.log` : what is written of the log.
-/

namespace Touchstone

/-- What has come out of the output of a world, when the files are as given. -/
def World.written (w : World) (files : FileSystem) : List UInt8 :=
  (files.taken w.output).drop (w.files.taken w.output).length

@[simp] theorem World.written_files (w : World) : w.written w.files = [] := by
  rw [World.written, List.drop_length]

namespace CommandLine

open Log (Record)

/-! ### Log records -/

/-- The target of the record about the error that ends a run. -/
def errorTarget : String := "laszlo_test_runner::cli"

/-- The target of the record about the report. -/
def reportTarget : String := "laszlo_test_runner::cli::commands"

/-- The record about the error that ends a run. -/
def recordOfError (d : Diagnostic) : Record :=
  ⟨.error, errorTarget, d.line, [("category", d.category.name)]⟩

/-- The record about a report that has been written. -/
def recordOfReport (path : Path) : Record :=
  ⟨.debug, reportTarget, "wrote run report", [("report", path.display)]⟩

/-! ### Following a request -/

/-- What a command line leaves. -/
structure Answer where
  /-- The exit code; a command that hangs has none. -/
  exitCode : Option Nat
  /-- The bytes that come out of the output. -/
  output : List UInt8
  /-- All log records, in order. -/
  records : List Record
  /-- The file system after the run. -/
  files : FileSystem

/-- The exit code of a runner that crashes. -/
def crashCode : Nat := 101

/-- The diagnostic about a fault of the command line. -/
def Fault.diagnostic (f : Fault) : Diagnostic := ⟨.usage, "INPUT.CLI_USAGE", f.message⟩

/-- The answer that reports an error after other records. -/
def Answer.ofError (w : World) (d : Diagnostic) (records : List Record) (files : FileSystem) :
    Answer :=
  ⟨some d.exitCode, w.written files, records ++ [recordOfError d], files⟩

/-- The answer that is a text. -/
def Answer.ofText (w : World) (text : String) : Answer :=
  ⟨some 0, Text.Utf8.encode text.toList, [], w.files⟩

/-- Follow a request for a run. -/
def followRun (w : World) (c : Config) : Answer :=
  match Reporter.log.suite w c [] with
  | (.error (.failure cause), p) => .ofError w cause.diagnostic p.held p.files
  | (.error (.crash _), p) => ⟨some crashCode, w.written p.files, p.held, p.files⟩
  | (.error .hang, p) => ⟨none, w.written p.files, p.held, p.files⟩
  | (.ok summary, p) =>
    ⟨some summary.exitCode, w.written p.files,
      p.held ++ (c.report.map recordOfReport).toList, p.files⟩

/-- Follow a request. -/
def follow (w : World) : Request → Answer
  | .help => .ofText w help
  | .version => .ofText w versionText
  | .run config => followRun w config

/-- Run a command line. -/
def answer (w : World) (args : List (List UInt8)) : Answer :=
  match parse args with
  | .error fault => .ofError w fault.diagnostic [] w.files
  | .ok request => follow w request

/-- The records of an answer that are written under a setting. -/
def Answer.shown (a : Answer) (setting : Option String) : List Record :=
  a.records.filter (Log.Selection.ofSetting setting).passes

/-- What is written of the log of an answer under a setting, each line behind its time stamp. -/
def Answer.log (a : Answer) (setting : Option String) (stamps : Nat → String) : String :=
  String.join ((a.shown setting).mapIdx fun n r => r.line (stamps n))

end CommandLine

end Touchstone
