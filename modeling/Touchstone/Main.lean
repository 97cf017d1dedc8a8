import Touchstone.CommandLine.Session

/-!
# The command

The command answers its arguments: the text that is asked for goes to the output, the log to the
error output, and the exit code is that of the answer.

The command has no surroundings of its own but the log setting.  It answers in a world without
files, where it can explain itself, point out faults of its arguments, and report that an
interpreter is missing.  Other surroundings are handed to `Touchstone.CommandLine.answer`.

## Main definitions

* `Touchstone.World.bare` : the world without files.
-/

namespace Touchstone

/-- The world without files, in which no program can be started. -/
def World.bare (setting : Option String) : World where
  files := .empty
  launch _ _ _ _ := .error .notFound
  leave _ files _ _ := files
  setting := setting
  output := []
  now := 0

/-- The time stamp of every line of the log in the world without files, where the time stands still.
-/
def World.bareStamp : String := "1970-01-01T00:00:00.000000Z"

end Touchstone

/-- Answer the arguments. -/
def main (args : List String) : IO UInt32 := do
  let world := Touchstone.World.bare (← IO.getEnv "RUST_LOG")
  let answer := Touchstone.CommandLine.answer world (args.map fun arg => arg.toUTF8.toList)
  (← IO.getStderr).putStr (answer.log world.setting fun _ => Touchstone.World.bareStamp)
  (← IO.getStdout).write ⟨answer.output.toArray⟩
  return (answer.exitCode.getD 0).toUInt32
