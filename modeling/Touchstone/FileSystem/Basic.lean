import Touchstone.Path

/-!
# File systems

A file system is a tree of directories with files, symbolic links and devices in them.  It is held
as the list of its nodes, each at the names that lead to it from the root.  The root is a directory
that is always there.

Every node has one place.  So there are no hard links: a file that is written under one name does
not change under another one.

## Main definitions

* `Touchstone.Node` : a directory, a file, a symbolic link or a device.
* `Touchstone.FileSystem` : the nodes, with the directory that relative paths start from.
* `Touchstone.FileSystem.node?`, `Touchstone.FileSystem.put`, `Touchstone.FileSystem.children` :
  look up a node, put one in place, and list a directory.
* `Touchstone.FileSystem.taken` : what a device has taken.
-/

namespace Touchstone

/-- The place of a node: the names that lead to it from the root. -/
abbrev Location := List Name

/-- What stands at a location. -/
inductive Node where
  /-- A directory. -/
  | directory
  /-- A file with its content, which may be marked as executable. -/
  | file (content : List UInt8) (executable : Bool)
  /-- A symbolic link to a path. -/
  | link (target : Path)
  /-- A device that takes whatever is written to it, with all that it has taken.  Nothing can be
  read from it. -/
  | device (taken : List UInt8)
  deriving DecidableEq, Repr

/-- The state of a file system. -/
structure FileSystem where
  /-- The nodes below the root. -/
  nodes : List (Location × Node)
  /-- The directory that relative paths start from. -/
  current : Location
  deriving Repr

namespace FileSystem

/-- The file system with no node below the root. -/
def empty : FileSystem := ⟨[], []⟩

/-- The node at a location. -/
def node? (fs : FileSystem) (place : Location) : Option Node :=
  if place.isEmpty then some .directory else fs.nodes.lookup place

/-- Put a node at a location, in place of the one that stands there. -/
def put (fs : FileSystem) (place : Location) (node : Node) : FileSystem :=
  { fs with nodes := (place, node) :: fs.nodes.filter (·.1 ≠ place) }

/-- The names of the nodes directly below a location. -/
def children (fs : FileSystem) (place : Location) : List Name :=
  fs.nodes.filterMap fun entry => if entry.1.dropLast = place then entry.1.getLast? else none

/-- What the device at a location has taken; where no device stands, nothing is taken. -/
def taken (fs : FileSystem) (place : Location) : List UInt8 :=
  match fs.node? place with
  | some (.device bytes) => bytes
  | _ => []

/-- The canonical path of a location. -/
def pathTo (place : Location) : Path := ⟨Path.separator :: Path.uncut place⟩

end FileSystem

end Touchstone
