import Touchstone.FileSystem.Resolve

/-!
# Changing a file system

Directories are made one by one or with all directories above them, and files are written as a
whole.  A change that fails half way leaves what it has done, so every change returns the file
system after it beside its result.

## Main definitions

* `Touchstone.FileSystem.makeDirectory`, `Touchstone.FileSystem.makeDirectories` : make directories.
* `Touchstone.FileSystem.writeFile` : write a file.
-/

namespace Touchstone.FileSystem

/-- A change: its result, and the file system after it. -/
abbrev Change := Except OsError Unit × FileSystem

/-- The location at which a path would make a new node, if its last name is free. -/
def vacancy (fs : FileSystem) (p : Path) : Except OsError Location :=
  if p.bytes.isEmpty then .error .notFound
  else if p.bytes.contains 0 then .error .zeroByte
  else
    match fs.walk .followed linkLimit (origin p fs.current) (names p).dropLast with
    | .error e => .error e
    | .ok here =>
      if fs.node? here ≠ some .directory then .error .notADirectory
      else
        match (names p).getLast? with
        | none => .error .fileExists
        | some name =>
          if name = Path.here ∨ name = Path.above then .error .fileExists
          else if nameLimit < name.length then .error .nameTooLong
          else if (fs.node? (here ++ [name])).isSome then .error .fileExists
          else .ok (here ++ [name])

/-- Make the directory that a path names. -/
def makeDirectory (fs : FileSystem) (p : Path) : Change :=
  match fs.vacancy p with
  | .error e => (.error e, fs)
  | .ok place => (.ok (), fs.put place .directory)

/-- The path and the paths above it, as far as there are any; at most `fuel` of them. -/
def ancestors : Nat → Path → List Path
  | 0, _ => []
  | fuel + 1, p => p :: (p.parent?.map (ancestors fuel)).getD []

/-- A failure does not count if the path leads to a directory all the same. -/
def orDirectory (p : Path) : Change → Change
  | (.error e, fs) => (if fs.isDirectory p then .ok () else .error e, fs)
  | done => done

/-- Make the first of the given paths, and those after it as far as they are missing; each path is
followed by the one above it. -/
def makeFirst (fs : FileSystem) : List Path → Change
  | [] => (.ok (), fs)
  | p :: above =>
    if p.bytes.isEmpty then (.ok (), fs)
    else
      match fs.makeDirectory p with
      | (.ok (), fs) => (.ok (), fs)
      | (.error e, _) =>
        if e = .notFound then
          match fs.makeFirst above with
          | (.error e, fs) => (.error e, fs)
          | (.ok (), fs) => orDirectory p (fs.makeDirectory p)
        else orDirectory p (.error e, fs)

/-- Make the directory that a path names, with all directories above it.  Directories that are there
are left alone. -/
def makeDirectories (fs : FileSystem) (p : Path) : Change :=
  fs.makeFirst (ancestors (p.bytes.length + 1) p)

/-- Write a file.  The content of a file that exists is replaced and its mark is kept; a new file is
not executable.  A device takes the content behind what it has taken before. -/
def writeFile (fs : FileSystem) (p : Path) (content : List UInt8) : Change :=
  match fs.find .created p with
  | .error e => (.error e, fs)
  | .ok place =>
    match fs.node? place with
    | none => (.ok (), fs.put place (.file content false))
    | some (.file _ executable) => (.ok (), fs.put place (.file content executable))
    | some (.device taken) => (.ok (), fs.put place (.device (taken ++ content)))
    | some _ => (.error .isADirectory, fs)

end Touchstone.FileSystem
