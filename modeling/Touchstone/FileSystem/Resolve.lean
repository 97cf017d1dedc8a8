import Touchstone.FileSystem.Basic
import Touchstone.OsError

/-!
# Resolving paths

A path is walked name by name.  Every name is looked up in a directory; a symbolic link on the way
is replaced by the path that it holds.  At most 40 links are followed.  A slash at the end of a path
asks for a directory; it is walked as an empty name.

## Main definitions

* `Touchstone.FileSystem.walk` : walk along names from a location.
* `Touchstone.FileSystem.locate` : the location that a path leads to.
* `Touchstone.FileSystem.canonical` : the canonical path of a node.
* `Touchstone.FileSystem.contentOf`, `Touchstone.FileSystem.readText`,
  `Touchstone.FileSystem.readDirectory` : what a path leads to.
-/

namespace Touchstone.FileSystem

/-- The greatest number of symbolic links that are followed. -/
def linkLimit : Nat := 40

/-- The greatest length of a name in bytes. -/
def nameLimit : Nat := 255

/-- The names of a path, without the empty ones between slashes. -/
def names (p : Path) : List Name := (Path.cut p.bytes).filter (!·.isEmpty)

/-- A path ends in a slash. -/
def endsInSlash (p : Path) : Bool := p.bytes.getLast? = some Path.separator

/-- The names of a path that are walked; a slash at the end is an empty name. -/
def steps (p : Path) : List Name := if endsInSlash p then names p ++ [[]] else names p

/-- How the last name of a path is taken. -/
inductive Goal where
  /-- The node has to exist, and a link is followed. -/
  | followed
  /-- The node has to exist, and a link is taken itself. -/
  | itself
  /-- A link is followed, and the node need not exist; it is no directory. -/
  | created
  deriving DecidableEq, Repr

/-- Where a path starts: at the root, or at a given location. -/
def origin (p : Path) (here : Location) : Location := if p.isAbsolute then [] else here

/-- Walk along names from a location, following at most `links` symbolic links. -/
def walk (fs : FileSystem) (goal : Goal) (links : Nat) (here : Location) :
    List Name → Except OsError Location
  | [] => .ok here
  | name :: rest =>
    if fs.node? here ≠ some .directory then .error .notADirectory
    else if name.isEmpty ∨ name = Path.here then fs.walk goal links here rest
    else if name = Path.above then fs.walk goal links here.dropLast rest
    else if rest = [[]] ∧ goal = .created then .error .isADirectory
    else if nameLimit < name.length then .error .nameTooLong
    else
      match fs.node? (here ++ [name]) with
      | none =>
        if rest.isEmpty ∧ goal = .created then .ok (here ++ [name]) else .error .notFound
      | some (.link target) =>
        if rest.isEmpty ∧ goal = .itself then .ok (here ++ [name])
        else
          match links with
          | 0 => .error .tooManyLinks
          | links + 1 => fs.walk goal links (origin target here) (steps target ++ rest)
      | some _ => fs.walk goal links (here ++ [name]) rest
termination_by names => (links, names.length)

/-- The location that a path leads to. -/
def find (fs : FileSystem) (goal : Goal) (p : Path) : Except OsError Location :=
  if p.bytes.isEmpty then .error .notFound
  else if p.bytes.contains 0 then .error .zeroByte
  else fs.walk goal linkLimit (origin p fs.current) (steps p)

/-- The location of the node that a path leads to, all links followed. -/
def locate (fs : FileSystem) (p : Path) : Except OsError Location := fs.find .followed p

/-- The canonical path of the node that a path leads to. -/
def canonical (fs : FileSystem) (p : Path) : Except OsError Path := (fs.locate p).map pathTo

/-- The node that a path leads to. -/
def target (fs : FileSystem) (p : Path) : Except OsError Node :=
  match fs.locate p with
  | .error e => .error e
  | .ok place =>
    match fs.node? place with
    | none => .error .notFound
    | some node => .ok node

/-- A path leads to a regular file. -/
def isFile (fs : FileSystem) (p : Path) : Bool :=
  match fs.target p with
  | .ok (.file _ _) => true
  | _ => false

/-- A path leads to a directory. -/
def isDirectory (fs : FileSystem) (p : Path) : Bool :=
  match fs.target p with
  | .ok .directory => true
  | _ => false

/-- A path leads to a device. -/
def isDevice (fs : FileSystem) (p : Path) : Bool :=
  match fs.target p with
  | .ok (.device _) => true
  | _ => false

/-- The content of the file that a path leads to; a device has none. -/
def contentOf (fs : FileSystem) (p : Path) : Except OsError (List UInt8) :=
  match fs.target p with
  | .error e => .error e
  | .ok (.file content _) => .ok content
  | .ok (.device _) => .ok []
  | .ok _ => .error .isADirectory

/-- The text of the file that a path leads to. -/
def readText (fs : FileSystem) (p : Path) : Except OsError (List Char) :=
  match fs.contentOf p with
  | .error e => .error e
  | .ok content =>
    match Text.Utf8.decode? content with
    | none => .error .invalidText
    | some text => .ok text

/-- The names in the directory that a path leads to, in no particular order. -/
def readDirectory (fs : FileSystem) (p : Path) : Except OsError (List Name) :=
  match fs.locate p with
  | .error e => .error e
  | .ok place =>
    match fs.node? place with
    | some .directory => .ok (fs.children place)
    | _ => .error .notADirectory

end Touchstone.FileSystem
