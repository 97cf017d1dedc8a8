import Touchstone.CommandLine.Argument

/-!
# Faults of a command line

A command line that cannot be followed has a fault.  The message about it names the fault, shows how
the command is used where that helps, and points to the help text.

## Main definitions

* `Touchstone.CommandLine.Fault` : a fault.
* `Touchstone.CommandLine.Fault.message` : the message about a fault.
-/

namespace Touchstone.CommandLine

/-- A hint about an argument that is not known. -/
inductive Hint where
  /-- There is none. -/
  | none
  /-- An argument with a similar name is known. -/
  | similar (name : String)
  /-- The argument can be given as a value behind two dashes. -/
  | asValue
  deriving DecidableEq, Repr

/-- Why a command line cannot be followed. -/
inductive Fault where
  /-- Paths are missing, beside the options that are used. -/
  | missing (absent : List Argument) (used : List Argument)
  /-- An argument is not known. -/
  | unexpected (text : String) (hint : Hint) (used : List Argument)
  /-- A value is missing. -/
  | valueMissing (argument : Argument)
  /-- A value is refused. -/
  | valueRefused (text : String) (argument : Argument) (reason : String)
  /-- An option is given again. -/
  | repeated (argument : Argument)
  /-- A flag is given a value. -/
  | valueUnwanted (text : String) (argument : Argument) (used : List Argument)
  /-- A value that should be text is not in UTF-8. -/
  | invalidText
  deriving DecidableEq, Repr

namespace Fault

/-- What is wrong. -/
def body : Fault → String
  | .missing absent _ =>
    "the following required arguments were not provided:" ++
      String.join (absent.map fun a => "\n  " ++ a.display)
  | .unexpected text hint _ =>
    "unexpected argument '" ++ text ++ "' found" ++
      match hint with
      | .none => ""
      | .similar name => "\n\n  tip: a similar argument exists: '--" ++ name ++ "'"
      | .asValue => "\n\n  tip: to pass '" ++ text ++ "' as a value, use '-- " ++ text ++ "'"
  | .valueMissing a => "a value is required for '" ++ a.display ++ "' but none was supplied"
  | .valueRefused text a reason =>
    "invalid value '" ++ text ++ "' for '" ++ a.display ++ "': " ++ reason
  | .repeated a => "the argument '" ++ a.display ++ "' cannot be used multiple times"
  | .valueUnwanted text a _ =>
    "unexpected value '" ++ text ++ "' for '" ++ a.display ++
      "' found; no more were expected"
  | .invalidText => "invalid UTF-8 was detected in one or more arguments"

/-- The line about the usage of the command, where it helps. -/
def usage? : Fault → Option String
  | .missing _ used => some (usageWith (used.map Argument.display))
  | .unexpected _ _ used | .valueUnwanted _ _ used => some (usageFor used)
  | .repeated _ | .invalidText => some usage
  | .valueMissing _ | .valueRefused _ _ _ => none

/-- The message about a fault. -/
def message (f : Fault) : String :=
  "error: " ++ f.body ++ "\n\n" ++ (f.usage?.map (· ++ "\n\n")).getD "" ++
    "For more information, try '--help'."

end Fault

end Touchstone.CommandLine
