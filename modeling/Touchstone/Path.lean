import Touchstone.Text.Utf8

/-!
# Paths

A path is a sequence of bytes.  A slash separates its parts; empty parts and parts `.` say nothing,
except that a relative path may begin with `.`.  Every other byte may stand in a name, so a path is
shown through the lossy reading of its bytes.

## Main definitions

* `Touchstone.Path` : a path.
* `Touchstone.Path.fileName?`, `Touchstone.Path.stem?`, `Touchstone.Path.extension?` : the last part
  as a name, and its two sides around the last dot.
* `Touchstone.Path.parent?`, `Touchstone.Path.join` : the path without its last part, and the path
  of an entry below it.
* `Touchstone.Path.display`, `Touchstone.Path.normalized` : a path as text.
-/

namespace Touchstone

/-- The name of a directory entry. -/
abbrev Name := List UInt8

/-- A path, given by its bytes. -/
structure Path where
  /-- The bytes of the path. -/
  bytes : List UInt8
  deriving DecidableEq, Repr, Inhabited

namespace Path

/-- The byte that separates the parts of a path. -/
def separator : UInt8 := '/'.toUInt8

/-- The byte that separates the stem of a name from its extension. -/
def dot : UInt8 := '.'.toUInt8

/-- The name that stands for the directory itself. -/
def here : Name := [dot]

/-- The name that stands for the directory above. -/
def above : Name := [dot, dot]

/-- The path with the given text. -/
def ofString (text : String) : Path := ⟨Text.Utf8.encode text.toList⟩

/-! ### Parts -/

/-- The byte sequence cut at every slash; a sequence without slashes is one part. -/
def cut : List UInt8 → List Name
  | [] => [[]]
  | b :: rest =>
    if b = separator then [] :: cut rest
    else
      match cut rest with
      | [] => [[b]]
      | name :: names => (b :: name) :: names

/-- Put parts together again, with a slash between neighbours. -/
def uncut : List Name → List UInt8
  | [] => []
  | [name] => name
  | name :: names => name ++ separator :: uncut names

/-- A path is absolute if it begins with a slash. -/
def isAbsolute (p : Path) : Bool := p.bytes.head? = some separator

/-- A part that says nothing: an empty one, or `.`. -/
def isIdle (part : Name) : Bool := part.isEmpty || part == here

/-- The leading part that counts although it may be idle: a relative path may begin with `.`. -/
def leading (p : Path) : List Name :=
  if (cut p.bytes).head? = some here then [here] else []

/-- The parts behind the leading slash or the leading `.`, idle ones included. -/
def body (p : Path) : List Name :=
  if p.isAbsolute then (cut p.bytes).tail
  else if p.leading.isEmpty then cut p.bytes
  else (cut p.bytes).tail

/-- The parts of a path that count, in order. -/
def parts (p : Path) : List Name :=
  p.leading ++ p.body.filter (!isIdle ·)

/-- The last part, if it names an entry. -/
def fileName? (p : Path) : Option Name :=
  p.parts.getLast?.filter fun name => name ≠ here ∧ name ≠ above

/-! ### Stem and extension -/

/-- The two sides of a name around its last dot, if it has one that is not its first byte.

The name `..` has no sides. -/
def sides? (name : Name) : Option (Name × Name) :=
  let extension := (name.reverse.takeWhile (· ≠ dot)).reverse
  let stem := (name.reverse.dropWhile (· ≠ dot)).tail.reverse
  if stem.isEmpty ∨ name = above then none else some (stem, extension)

/-- The name without its extension. -/
def stemOf (name : Name) : Name :=
  match sides? name with
  | some (stem, _) => stem
  | none => name

/-- The stem of the last part. -/
def stem? (p : Path) : Option Name := p.fileName?.map stemOf

/-- The extension of the last part. -/
def extension? (p : Path) : Option Name :=
  p.fileName?.bind fun name => (sides? name).map Prod.snd

/-! ### Going up and down -/

/-- The path with the given parts behind its leading slash or `.`. -/
def withBody (p : Path) (body : List Name) : Path :=
  if p.isAbsolute then ⟨separator :: uncut body⟩ else ⟨uncut (p.leading ++ body)⟩

/-- The path without its last part; the root and the empty path have none to lose. -/
def parent? (p : Path) : Option Path :=
  match p.body.reverse.dropWhile isIdle with
  | _ :: before => some (p.withBody (before.dropWhile isIdle).reverse)
  | [] => if p.leading.isEmpty then none else some ⟨[]⟩

/-- The path of the entry `name` in the directory `p`. -/
def join (p : Path) (name : Name) : Path :=
  if name.head? = some separator then ⟨name⟩
  else if p.bytes.isEmpty ∨ p.bytes.getLast? = some separator then ⟨p.bytes ++ name⟩
  else ⟨p.bytes ++ separator :: name⟩

/-! ### Paths as text -/

/-- The path as text. -/
def display (p : Path) : String := Text.Utf8.shown p.bytes

/-- The path as text with every backslash turned into a slash, as reports show it. -/
def normalized (p : Path) : String :=
  String.ofList ((Text.Utf8.decodeLossy p.bytes).map fun c => if c = '\\' then '/' else c)

end Path

end Touchstone
