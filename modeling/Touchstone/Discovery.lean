import Touchstone.Failure
import Touchstone.FileSystem.Resolve
import Touchstone.Fixture
import Touchstone.Glob.Matcher
import Touchstone.Glob.Nesting

/-!
# Finding fixtures

The fixtures of a directory are the entries that lead to a regular file whose extension is that of
source files.  The file may stand elsewhere: an entry that is a link counts for the file it leads
to, and an entry that leads nowhere is passed over.  A filter selects by the name of the entry.
Fixtures are listed in the order of their entry names, and fixtures under one name in the order of
their paths, part by part.

## Main definitions

* `Touchstone.Filter` : a choice among entry names.
* `Touchstone.Discovery.among` : the fixtures among the entries of a directory.
* `Touchstone.Discovery.discover` : the fixtures of a directory.
-/

namespace Touchstone

/-- A choice among entry names. -/
inductive Filter where
  /-- Every name. -/
  | all
  /-- The names that a glob pattern matches. -/
  | glob (pattern : Glob.Pattern)
  deriving Repr

namespace Filter

/-- The filter of a glob pattern. -/
def ofGlob (pattern : String) : Except Stop Filter :=
  match Glob.parse pattern with
  | .error e => .error (.failure (.invalidFilter pattern e))
  | .ok tokens =>
    if Glob.nestingLimit < Glob.nesting tokens then .error (.crash .filterTooDeep)
    else .ok (.glob tokens)

/-- The filter of an optional glob pattern. -/
def ofGlob? : Option String → Except Stop Filter
  | none => .ok .all
  | some pattern => ofGlob pattern

/-- A filter selects a name. -/
def admits : Filter → Name → Bool
  | .all, _ => true
  | .glob pattern, name => Glob.matchesName pattern name

end Filter

namespace Discovery

/-- The fixture of an entry of the directory `sources`, if it is one. -/
def fixture? (fs : FileSystem) (sources : Path) (filter : Filter) (name : Name) :
    Option Fixture :=
  match fs.canonical (sources.join name) with
  | .error _ => none
  | .ok path =>
    if fs.isFile path && path.extension? == some Fixture.extension && filter.admits name then
      (Fixture.of? sources path).map (·.withFileName name)
    else none

/-- The fixture `f` is listed before `g` or at the same place. -/
def before (f g : Fixture) : Bool :=
  f.fileName < g.fileName ∨ f.fileName = g.fileName ∧ f.path.parts ≤ g.path.parts

/-- The fixtures among the entries of the directory `sources`. -/
def among (fs : FileSystem) (sources : Path) (filter : Filter) (names : List Name) :
    List Fixture :=
  (names.filterMap (fixture? fs sources filter)).mergeSort before

/-- The fixtures of the directory `sources`. -/
def discover (fs : FileSystem) (sources : Path) (filter : Filter) :
    Except Failure (List Fixture) :=
  match fs.readDirectory sources with
  | .error e => .error (.readDirectory sources e)
  | .ok names => .ok (among fs sources filter names)

end Discovery

end Touchstone
