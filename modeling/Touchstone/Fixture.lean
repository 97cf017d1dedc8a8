import Touchstone.Path

/-!
# Fixtures

A fixture is a source file that is run as one test.  Its expected output stands in the directory of
the sources, under the stem of the source's name with an ending of its own.

## Main definitions

* `Touchstone.Fixture` : a fixture.
* `Touchstone.Fixture.of?` : the fixture of a source file.
* `Touchstone.Fixture.name` : the name that a fixture is shown under.
-/

namespace Touchstone

/-- A source file that is run as one test. -/
structure Fixture where
  /-- The canonical path of the source file. -/
  path : Path
  /-- The name of the directory entry that the source file was found under. -/
  fileName : Name
  /-- The path of the expected output. -/
  expectation : Path
  deriving DecidableEq, Repr

namespace Fixture

/-- The extension of source files. -/
def extension : Name := Text.Utf8.encode "las".toList

/-- The ending of the names of expected outputs. -/
def expectationEnding : Name := Text.Utf8.encode "_expected.txt".toList

/-- The fixture of a source file; a path without a file name has none. -/
def of? (sources path : Path) : Option Fixture :=
  path.fileName?.map fun name =>
    ⟨path, name, sources.join (Path.stemOf name ++ expectationEnding)⟩

/-- The fixture under another entry name. -/
def withFileName (f : Fixture) (name : Name) : Fixture := { f with fileName := name }

/-- The stem of the entry name, as text. -/
def name (f : Fixture) : String :=
  Text.Utf8.shown ((Path.mk f.fileName).stem?.getD f.fileName)

end Fixture

end Touchstone
