import Touchstone.Duration
import Touchstone.OsError
import Touchstone.Text.Utf8

/-!
# Running the interpreter

The interpreter is started on a source file and runs as a child process until it ends by itself or
is killed.  Without a time limit its end is awaited.  With one it is looked at again and again: an
ended child is noticed first, and only then is the clock compared with the deadline.

## Main definitions

* `Touchstone.ExitStatus` : how a process ended.
* `Touchstone.Invocation` : what the run of a process gave.
* `Touchstone.Child` : a child that ends, with the moments at which it is still seen running.
* `Touchstone.Launched` : a started program, by what becomes of it.
* `Touchstone.Child.await` : wait for a child under a deadline.
-/

namespace Touchstone

/-- How a process ended. -/
inductive ExitStatus where
  /-- It exited with a code. -/
  | code (n : Int)
  /-- A signal ended it. -/
  | signal
  deriving DecidableEq, Repr

namespace ExitStatus

/-- A process succeeded if it exited with code zero. -/
def success : ExitStatus → Bool
  | .code n => n == 0
  | .signal => false

/-- The wording of a status. -/
def message : ExitStatus → String
  | .code n => "return code " ++ toString n
  | .signal => "terminated by signal"

end ExitStatus

/-- What the run of a process gave. -/
structure Invocation where
  /-- How the process ended. -/
  status : ExitStatus
  /-- What it wrote to its output. -/
  stdout : List Char
  /-- What it wrote to its error output. -/
  stderr : List Char
  deriving DecidableEq, Repr

/-! ### Children -/

/-- A reading of the clock, in nanoseconds. -/
abbrev Instant := Nat

/-- The number of seconds that the clock cannot reach. -/
def clockLimit : Nat := Nat.pow 2 63

/-- A child that ends. -/
structure Child where
  /-- How it ends. -/
  status : ExitStatus
  /-- The bytes that are written to its output until the output is closed. -/
  stdout : List UInt8
  /-- The bytes that are written to its error output until that is closed. -/
  stderr : List UInt8
  /-- The reading of the clock after the start. -/
  startedAt : Instant
  /-- The readings of the clock after the looks at the child that see it running, in order.  The
  look after the last of them sees that it has ended. -/
  runningAt : List Instant
  deriving DecidableEq, Repr

/-- What the run of an ended child gave. -/
def Child.invocation (c : Child) : Invocation :=
  ⟨c.status, Text.Utf8.decodeLossy c.stdout, Text.Utf8.decodeLossy c.stderr⟩

/-- A started program, by what becomes of it. -/
inductive Launched where
  /-- It ends, and all that it writes is read. -/
  | ends (child : Child)
  /-- It ends, but the system fails to tell. -/
  | unawaited (child : Child) (error : OsError)
  /-- It ends, but what it writes cannot be read. -/
  | unread (child : Child) (error : OsError)
  /-- It ends, but something that it has started keeps its outputs open for ever. -/
  | heldOpen (child : Child)
  /-- It runs for ever. -/
  | runsOn (startedAt : Instant)
  deriving DecidableEq, Repr

/-- The reading of the clock after the start of a program. -/
def Launched.startedAt : Launched → Instant
  | .ends child | .unawaited child _ | .unread child _ | .heldOpen child => child.startedAt
  | .runsOn startedAt => startedAt

/-- What is done while a child is awaited. -/
inductive Action where
  /-- Look whether the child has ended. -/
  | look
  /-- Sleep until the next look. -/
  | sleep
  /-- Kill the child. -/
  | kill
  /-- Take the status of the killed child. -/
  | reap
  deriving DecidableEq, Repr

/-- The end of the wait for a child. -/
inductive Ending where
  /-- The child has ended by itself. -/
  | exited (status : ExitStatus)
  /-- The child was killed at the deadline. -/
  | killed
  deriving DecidableEq, Repr

/-- Wait for a child that ends with `status` and is seen running at the given moments: what is done,
and how the wait ends. -/
def awaitUntil (deadline : Instant) (status : ExitStatus) : List Instant → List Action × Ending
  | [] => ([.look], .exited status)
  | now :: later =>
    if deadline ≤ now then ([.look, .kill, .reap], .killed)
    else
      let rest := awaitUntil deadline status later
      (.look :: .sleep :: rest.1, rest.2)

/-- Wait for a child until a deadline. -/
def Child.await (c : Child) (deadline : Instant) : List Action × Ending :=
  awaitUntil deadline c.status c.runningAt

/-- The moment that lies a time limit after another, if the clock can reach it. -/
def deadline? (start : Instant) (limit : Duration) : Option Instant :=
  if start + limit.nanoseconds < clockLimit * Duration.perSecond then
    some (start + limit.nanoseconds)
  else none

end Touchstone
