/-!
# Arguments of the command line

The command line takes two paths in order, three options with a value, and two flags that ask for
text.

## Main definitions

* `Touchstone.CommandLine.Argument` : an argument that the command line takes.
* `Touchstone.CommandLine.usage` : the line that shows how the command is used.
* `Touchstone.CommandLine.help` : the text that explains the command.
-/

namespace Touchstone.CommandLine

/-- An argument that the command line takes. -/
inductive Argument where
  /-- The path of the interpreter, in the first place. -/
  | executable
  /-- The path of the sources, in the second place. -/
  | sources
  /-- The glob pattern of the fixtures to run. -/
  | filter
  /-- The time limit. -/
  | timeout
  /-- The path of the report. -/
  | report
  /-- The request for the help text. -/
  | help
  /-- The request for the version. -/
  | version
  deriving DecidableEq, Repr

namespace Argument

/-- An argument as it is shown. -/
def display : Argument → String
  | .executable => "<LASZLO EXECUTABLE PATH>"
  | .sources => "<SOURCES DIRECTORY PATH>"
  | .filter => "--filter <GLOB>"
  | .timeout => "--timeout <SECONDS>"
  | .report => "--report <PATH>"
  | .help => "--help"
  | .version => "--version"

/-- The names of the arguments that are given by name, in order. -/
def names : List (String × Argument) :=
  [("filter", .filter), ("timeout", .timeout), ("report", .report), ("help", .help),
    ("version", .version)]

/-- The letters of the arguments that can be given by a letter. -/
def letters : List (Char × Argument) := [('h', .help), ('V', .version)]

end Argument

/-- The name of the command. -/
def command : String := "laszlo-test-runner"

/-- The text about the version. -/
def versionText : String := command ++ " 0.1.0\n"

/-- The line that shows how the command is used with the given arguments, and with both paths. -/
def usageWith (shown : List String) : String :=
  "Usage: " ++ command ++ String.join (shown.map (" " ++ ·)) ++ " " ++
    Argument.executable.display ++ " " ++ Argument.sources.display

/-- The line that shows how the command is used in general. -/
def usage : String := usageWith ["[OPTIONS]"]

/-- The line that shows how the command is used with the given arguments, if there are any. -/
def usageFor : List Argument → String
  | [] => usage
  | used => usageWith (used.map Argument.display)

/-- The text that explains the command. -/
def help : String :=
  "Run laszlo sources and compare their output against recorded expectations\n\n" ++ usage ++
  "\n\nArguments:\n" ++
  "  <LASZLO EXECUTABLE PATH>  Path to the laszlo interpreter under test\n" ++
  "  <SOURCES DIRECTORY PATH>  Directory holding \x60.las\x60 sources and their " ++
  "\x60<name>_expected.txt\x60 files\n" ++
  "\nOptions:\n" ++
  "      --filter <GLOB>      Only run fixtures whose file name matches this glob\n" ++
  "      --timeout <SECONDS>  Kill the interpreter and abort the run if one fixture " ++
  "takes longer\n" ++
  "      --report <PATH>      Write a JSON run report to this path\n" ++
  "  -h, --help               Print help\n" ++
  "  -V, --version            Print version\n"

end Touchstone.CommandLine
