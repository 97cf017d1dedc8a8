import Touchstone.Proofs.Discovery.Listing
import Touchstone.Proofs.FileSystem.Frame

/-!
# Finding the same fixtures again

A change that is out of the way of a directory's entries leaves the fixtures of the directory as
they were: the same are found, their sources have the same content, and their expected outputs are
the same.

## Main definitions

* `Touchstone.Discovery.SeenAlike` : a fixture looks the same before and after a change.

## Main results

* `Touchstone.Discovery.discover_frame` : the same fixtures are found.
* `Touchstone.Discovery.seenAlike_of_discover` : they look the same.
-/

namespace Touchstone

/-! ### Names of expected outputs -/

namespace Path

theorem mem_stemOf {name : Name} {b : UInt8} (h : b ∈ stemOf name) : b ∈ name := by
  rw [stemOf] at h
  split at h
  · rename_i stem extension hsides
    rw [sides?] at hsides
    split at hsides
    · simp at hsides
    · obtain ⟨rfl, -⟩ := Prod.mk.inj (Option.some.inj hsides)
      have hmem := List.mem_of_mem_tail (List.mem_reverse.1 h)
      exact List.mem_reverse.1 ((List.dropWhile_suffix _).subset hmem)
  · exact h

theorem separator_notMem_fileName? {p : Path} {name : Name} (h : p.fileName? = some name) :
    separator ∉ name := by
  have hparts : name ∈ p.parts := by
    obtain ⟨hlast, -⟩ := Option.filter_eq_some_iff.1 h
    exact List.mem_of_getLast? hlast
  rcases List.mem_append.1 hparts with hpart | hpart
  · exact (mem_cut (mem_leading hpart).2).1
  · exact (mem_cut (mem_body (List.mem_of_mem_filter hpart))).1

end Path

/-- The expected output of a fixture stands in the directory of the sources, under a proper name. -/
theorem Fixture.exists_name_of_of? {sources path : Path} {f : Fixture}
    (h : of? sources path = some f) :
    ∃ name, f.expectation = sources.join name ∧ name ≠ [] ∧ Path.separator ∉ name := by
  obtain ⟨name, hname, rfl⟩ := Option.map_eq_some_iff.1 h
  refine ⟨_, rfl, by simp [expectationEnding, Text.Utf8.encode], ?_⟩
  rw [List.mem_append, not_or]
  exact ⟨fun hmem => Path.separator_notMem_fileName? hname (Path.mem_stemOf hmem), by decide⟩

namespace Discovery

open FileSystem (pathTo IsName)

/-- A fixture looks the same before and after a change: its source has the same content, and its
expected output is the same. -/
structure SeenAlike (fs fs' : FileSystem) (f : Fixture) : Prop where
  content : fs'.contentOf f.path = fs.contentOf f.path
  isFile : fs'.isFile f.expectation = fs.isFile f.expectation
  readText : fs.isFile f.expectation = true →
    fs'.readText f.expectation = fs.readText f.expectation

variable {fs fs' : FileSystem} {home : Location} {filter : Filter} {name : Name}
  {found : List Fixture} {f : Fixture} (tree : fs.IsTree) (kept : fs.Kept fs')
  (h : fs.Undisturbed fs' home) (hdir : fs.node? home = some .directory)

include tree kept h hdir

theorem fixture?_frame (hname : IsName name) :
    fixture? fs' (pathTo home) filter name = fixture? fs (pathTo home) filter name := by
  have hiff : ∀ place, fs'.locate ((pathTo home).join name) = .ok place ↔
      fs.locate ((pathTo home).join name) = .ok place ∧ fs'.node? place = fs.node? place :=
    fun _ => h.locate_join_iff tree kept hdir hname.ne_nil hname.noSlash
  rw [fixture?, fixture?]
  cases hcanonical : fs.canonical ((pathTo home).join name) with
  | ok path =>
    obtain ⟨place, hplace, rfl⟩ := FileSystem.canonical_eq_ok_iff.1 hcanonical
    have hplace' := kept.locate hplace
    have hcanonical' := FileSystem.canonical_eq_ok_iff.2 ⟨place, hplace', rfl⟩
    have htarget := kept.target (tree.locate_canonical hplace).2 ((hiff place).1 hplace').2
    have hfile : fs'.isFile (pathTo place) = fs.isFile (pathTo place) := by
      rw [FileSystem.isFile, FileSystem.isFile, htarget]
    simp only [hcanonical', hfile]
  | error e =>
    cases hcanonical' : fs'.canonical ((pathTo home).join name) with
    | error e' => rfl
    | ok path =>
      obtain ⟨place, hplace', rfl⟩ := FileSystem.canonical_eq_ok_iff.1 hcanonical'
      have hbefore := FileSystem.canonical_eq_ok_iff.2 ⟨place, ((hiff place).1 hplace').1, rfl⟩
      simp [hcanonical] at hbefore

/-- The same fixtures are found. -/
theorem discover_frame (children : fs'.children home = fs.children home) :
    discover fs' (pathTo home) filter = discover fs (pathTo home) filter := by
  have hplace := tree.locate_pathTo hdir (by simp)
  have hread : fs.readDirectory (pathTo home) = .ok (fs.children home) :=
    FileSystem.readDirectory_eq_ok_iff.2 ⟨home, hplace, hdir, rfl⟩
  have hread' : fs'.readDirectory (pathTo home) = .ok (fs.children home) :=
    FileSystem.readDirectory_eq_ok_iff.2 ⟨home, kept.locate hplace, kept.directory hdir, children⟩
  have hfixtures : (fs.children home).filterMap (fixture? fs' (pathTo home) filter) =
      (fs.children home).filterMap (fixture? fs (pathTo home) filter) :=
    List.filterMap_congr fun name hname =>
      fixture?_frame tree kept h hdir (tree.isName_of_mem_children hname)
  rw [discover, discover, hread, hread']
  simp only [among, hfixtures]

/-- The fixtures that are found look the same. -/
theorem seenAlike_of_discover (hfound : discover fs (pathTo home) filter = .ok found)
    (hf : f ∈ found) : SeenAlike fs fs' f := by
  obtain ⟨names, hnames, rfl⟩ := discover_eq_ok_iff.1 hfound
  obtain ⟨hname, eligible, hof⟩ := mem_among_iff.1 hf
  obtain ⟨found, hplace, -, rfl⟩ := FileSystem.readDirectory_eq_ok_iff.1 hnames
  obtain rfl : home = found :=
    Except.ok.inj ((tree.locate_pathTo hdir (by simp)).symm.trans hplace)
  have hproper := tree.isName_of_mem_children hname
  obtain ⟨place, hsource, hpath⟩ := FileSystem.canonical_eq_ok_iff.1 eligible.canonical
  have hsame := ((h.locate_join_iff tree kept hdir hproper.ne_nil hproper.noSlash).1
    (kept.locate hsource)).2
  have htarget := kept.target (tree.locate_canonical hsource).2 hsame
  obtain ⟨g, hg, hgf⟩ := Option.map_eq_some_iff.1 hof
  obtain ⟨ending, hexpectation, hne, hslash⟩ := Fixture.exists_name_of_of? hg
  have hexpectation' : f.expectation = (pathTo home).join ending := hgf ▸ hexpectation
  refine ⟨?_, ?_, ?_⟩
  · rw [hpath, FileSystem.contentOf, FileSystem.contentOf, htarget]
  · rw [hexpectation']
    exact h.isFile_join tree kept hdir hne hslash
  · rw [hexpectation']
    exact h.readText_join tree kept hdir hne hslash

end Discovery

end Touchstone
