import Touchstone.FileSystem.Resolve
import Touchstone.Suite.Run

/-!
# Starting the interpreter

A program is started by the system if it is a file marked as executable.  A program that names a
loader in its first line needs that loader.  What a started program does is not modelled: it is
given by a launcher.

The runner waits for the end of the program, up to the time limit if there is one, and then for the
ends of its outputs, without any limit.

## Main definitions

* `Touchstone.startFault?` : why a program cannot be started.
* `Touchstone.Launcher` : what a program does on a source file.
* `Touchstone.launchedResult` : what comes of a started program.
* `Touchstone.processExecutor` : run fixtures by a launcher.
-/

namespace Touchstone

/-- The path of the loader that a program names in its first line, behind `#!`. -/
def loader? (content : List UInt8) : Option Path :=
  match content with
  | a :: b :: rest =>
    if a = '#'.toUInt8 ∧ b = '!'.toUInt8 then
      let isGap := fun c : UInt8 => c = ' '.toUInt8 || c = '\t'.toUInt8
      let line := rest.takeWhile (· ≠ '\n'.toUInt8)
      some ⟨(line.dropWhile isGap).takeWhile (!isGap ·)⟩
    else none
  | _ => none

/-- Why the system cannot start a program. -/
def startFault? (fs : FileSystem) (program : Path) : Option OsError :=
  match fs.target program with
  | .error e => some e
  | .ok (.file content true) =>
    match loader? content with
    | none => none
    | some loader => if fs.isFile loader then none else some .notFound
  | .ok _ => some .permissionDenied

/-- What a program does when it is started on a source file, unless the system refuses to start it.
-/
abbrev Launcher := FileSystem → Path → Path → Except OsError Launched

/-- The end of a started child, under a time limit if there is one. -/
def childResult (f : Fixture) (limit : Option Duration) (c : Child) : Except Stop Invocation :=
  match limit with
  | none => .ok c.invocation
  | some limit =>
    match deadline? c.startedAt limit with
    | none => .error (.crash .deadlineBeyondClock)
    | some deadline =>
      match (c.await deadline).2 with
      | .exited _ => .ok c.invocation
      | .killed => .error (.failure (.timedOut f.path limit))

/-- What comes of a started program, under a time limit if there is one.  The outputs of a program
that was killed are not waited for. -/
def launchedResult (f : Fixture) (limit : Option Duration) : Launched → Except Stop Invocation
  | .ends child => childResult f limit child
  | .unawaited child e =>
    (childResult f limit child).bind fun _ => .error (.failure (.awaitInterpreter f.path e))
  | .unread child e =>
    (childResult f limit child).bind fun _ => .error (.failure (.captureOutput f.path e))
  | .heldOpen child => (childResult f limit child).bind fun _ => .error .hang
  | .runsOn startedAt =>
    match limit with
    | none => .error .hang
    | some limit =>
      match deadline? startedAt limit with
      | none => .error (.crash .deadlineBeyondClock)
      | some _ => .error (.failure (.timedOut f.path limit))

/-- Run the interpreter `program` on fixtures. -/
def processExecutor (launch : Launcher) (fs : FileSystem) (program : Path)
    (limit : Option Duration) : Executor := fun f =>
  match launch fs program f.path with
  | .error e => .error (.failure (.startInterpreter program e))
  | .ok launched => launchedResult f limit launched

end Touchstone
