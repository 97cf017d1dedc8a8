import Touchstone.CommandLine.Fault
import Touchstone.CommandLine.Similar
import Touchstone.Suite.Session
import Touchstone.Timeout

/-!
# Reading a command line

The arguments are read from left to right.  An argument that begins with two dashes names an option
or a flag; its value follows an equals sign or is the next argument.  An argument that begins with
one dash gives flags by their letters.  Any other argument is a value that an option waits for, or
else a path.  Behind the argument `--` all arguments are paths.

A value is taken up when the next argument of its own is met, and not before.  So a fault in a value
is passed over when the next argument is itself not known.

## Main definitions

* `Touchstone.CommandLine.Request` : what a command line asks for.
* `Touchstone.CommandLine.Given` : the values that have been taken up.
* `Touchstone.CommandLine.parse` : read a command line.
-/

namespace Touchstone.CommandLine

/-- What a command line asks for. -/
inductive Request where
  /-- The help text. -/
  | help
  /-- The version. -/
  | version
  /-- A run. -/
  | run (config : Config)
  deriving DecidableEq, Repr

/-- Why reading ends before the last argument. -/
inductive Halt where
  /-- The help text is asked for. -/
  | help
  /-- The version is asked for. -/
  | version
  /-- The command line has a fault. -/
  | fault (f : Fault)
  deriving DecidableEq, Repr

/-! ### Values -/

/-- The values that have been taken up. -/
structure Given where
  /-- The path of the interpreter. -/
  executable : Option Path
  /-- The path of the sources. -/
  sources : Option Path
  /-- The glob pattern. -/
  filter : Option String
  /-- The time limit. -/
  timeout : Option Duration
  /-- The path of the report. -/
  report : Option Path
  /-- The options that have been met, in order. -/
  used : List Argument
  deriving DecidableEq, Repr

namespace Given

/-- No values. -/
def nothing : Given := ⟨none, none, none, none, none, []⟩

/-- The values with one more option met. -/
def meet (g : Given) (a : Argument) : Given := { g with used := g.used ++ [a] }

/-- Take up a path, which must not be empty. -/
def takePath (g : Given) (a : Argument) (value : List UInt8) (set : Path → Given) :
    Given × Option Fault :=
  if value.isEmpty then (g, some (.valueMissing a)) else (set ⟨value⟩, none)

/-- Take up the value of an argument: the values after it, and the fault if there is one. -/
def take (g : Given) (a : Argument) (value : List UInt8) : Given × Option Fault :=
  if g.used.contains a then ({ g with used := g.used.filter (· ≠ a) }, some (.repeated a))
  else
    match a with
    | .executable => g.takePath a value fun p => { g with executable := some p }
    | .sources => g.takePath a value fun p => { g with sources := some p }
    | .report => (g.meet a).takePath a value fun p => { g.meet a with report := some p }
    | .filter =>
      match Text.Utf8.decode? value with
      | none => (g.meet a, some .invalidText)
      | some text => ({ g.meet a with filter := some (String.ofList text) }, none)
    | .timeout =>
      match Text.Utf8.decode? value with
      | none => (g.meet a, some .invalidText)
      | some text =>
        match Timeout.parse (String.ofList text) with
        | .error e =>
          (g.meet a, some (.valueRefused (String.ofList text) a e.message))
        | .ok limit => ({ g.meet a with timeout := some limit }, none)
    | .help | .version => (g, none)

/-- The paths that are missing. -/
def absent (g : Given) : List Argument :=
  (if g.executable.isNone then [.executable] else []) ++
    if g.sources.isNone then [.sources] else []

/-- The run that the values ask for. -/
def request (g : Given) : Except Fault Request :=
  match g.executable, g.sources with
  | some executable, some sources =>
    .ok (.run ⟨executable, sources, g.filter, g.timeout, g.report⟩)
  | _, _ => .error (.missing g.absent g.used)

end Given

/-! ### Arguments -/

/-- What has been met and is not taken up. -/
inductive Pending where
  /-- Nothing. -/
  | nothing
  /-- An option without its value. -/
  | option (a : Argument)
  /-- A value. -/
  | value (a : Argument) (value : List UInt8)
  deriving DecidableEq, Repr

/-- A command line that is being read. -/
structure State where
  /-- The values that have been taken up. -/
  given : Given
  /-- What has not been taken up. -/
  pending : Pending
  /-- The paths that have not been met. -/
  paths : List Argument
  /-- All further arguments are paths. -/
  onlyPaths : Bool
  deriving DecidableEq, Repr

namespace State

/-- The state before the first argument. -/
def start : State := ⟨.nothing, .nothing, [.executable, .sources], false⟩

/-- The values after what is pending has been taken up, and the fault if there is one. -/
def settled (s : State) : Given × Option Fault :=
  match s.pending with
  | .nothing => (s.given, none)
  | .option a => (s.given, some (.valueMissing a))
  | .value a value => s.given.take a value

/-- Take up what is pending, and then go on. -/
def settle (s : State) : Except Halt State :=
  match s.settled with
  | (_, some fault) => .error (.fault fault)
  | (given, none) => .ok { s with given, pending := .nothing }

/-- Take up what is pending, and then ask for a text. -/
def ask (s : State) (halt : Halt) : Except Halt State :=
  match s.settle with
  | .error halt => .error halt
  | .ok _ => .error halt

/-- Meet a value: it belongs to the option that waits for one, or is the next path. -/
def value (s : State) (text : List UInt8) : Except Halt State :=
  match s.pending, s.onlyPaths with
  | .option a, false => .ok { s with pending := .value a text }
  | _, _ =>
    match s.paths with
    | [] => .error (.fault (.unexpected (Text.Utf8.shown text) .none []))
    | path :: paths =>
      match s.settle with
      | .error halt => .error halt
      | .ok s => .ok { s with pending := .value path text, paths }

/-- Meet a name that is not known. -/
def unknownName (s : State) (name : String) : Except Halt State :=
  let used := s.settled.1.used
  match mostSimilar? name (Argument.names.map Prod.fst) with
  | none => .error (.fault (.unexpected ("--" ++ name) .asValue used))
  | some similar =>
    let meant := (Argument.names.lookup similar).toList.filter (!used.contains ·)
    .error (.fault (.unexpected ("--" ++ name) (.similar similar) (used ++ meant)))

/-- Meet an argument by its name, with the value behind an equals sign. -/
def named (s : State) (name : List UInt8) (value : Option (List UInt8)) : Except Halt State :=
  match (Text.Utf8.decode? name).bind fun text => Argument.names.lookup (String.ofList text) with
  | none => s.unknownName (Text.Utf8.shown name)
  | some a =>
    match value with
    | none =>
      match a with
      | .help => s.ask .help
      | .version => s.ask .version
      | _ => s.settle.map fun s => { s with pending := .option a }
    | some value =>
      if a = .help ∨ a = .version then
        .error (.fault (.valueUnwanted (Text.Utf8.shown value) a (s.given.used ++ [a])))
      else
        match s.settle with
        | .error halt => .error halt
        | .ok s => ({ s with pending := .value a value } : State).settle

/-- Meet flags by their letters; the first one decides. -/
def lettered (s : State) (text : List UInt8) : Except Halt State :=
  match Text.Utf8.pieces text with
  | .scalar c :: _ =>
    match Argument.letters.lookup c with
    | some .help => s.ask .help
    | some .version => s.ask .version
    | _ => .error (.fault (.unexpected ("-" ++ c.toString) .asValue []))
  | _ => .error (.fault (.unexpected ("-" ++ Text.Utf8.shown text) .asValue []))

/-- The dash. -/
def dash : UInt8 := '-'.toUInt8

/-- The equals sign. -/
def equals : UInt8 := '='.toUInt8

/-- Meet an argument. -/
def meet (s : State) (arg : List UInt8) : Except Halt State :=
  if s.onlyPaths then s.value arg
  else
    match arg with
    | a :: b :: rest =>
      if a = dash ∧ b = dash then
        if rest.isEmpty then .ok { s with onlyPaths := true }
        else
          let value := rest.dropWhile (· ≠ equals)
          s.named (rest.takeWhile (· ≠ equals)) (if value.isEmpty then none else some value.tail)
      else if a = dash then s.lettered (b :: rest)
      else s.value arg
    | _ => s.value arg

/-- Meet arguments one after the other. -/
def meetAll (s : State) : List (List UInt8) → Except Halt State
  | [] => .ok s
  | arg :: args =>
    match s.meet arg with
    | .error halt => .error halt
    | .ok s => s.meetAll args

end State

/-- Read a command line. -/
def parse (args : List (List UInt8)) : Except Fault Request :=
  match State.start.meetAll args with
  | .error .help => .ok .help
  | .error .version => .ok .version
  | .error (.fault f) => .error f
  | .ok s =>
    match s.settled with
    | (_, some fault) => .error fault
    | (given, none) => given.request

end Touchstone.CommandLine
