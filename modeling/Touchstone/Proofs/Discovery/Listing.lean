import Touchstone.Proofs.FileSystem.Relisting
import Touchstone.Proofs.Run.Stopping

/-!
# The fixtures of a directory

An entry of a directory is a fixture if it leads to a source file and the filter selects its name.
The fixtures are listed by the names of their entries, each name once, so the list does not depend
on the order in which the directory is read, and neither does a run over it.

## Main definitions

* `Touchstone.Discovery.Eligible` : an entry leads to a source file, and its name is selected.

## Main results

* `Touchstone.Discovery.eq_among` : the list of fixtures is the only one in order.
* `Touchstone.Discovery.discover_exact` : the fixtures are the eligible entries, in strict order.
-/

namespace Touchstone

namespace Fixture

variable {sources path : Path}

/-- The fixture of a file under an entry name keeps both the path and the name. -/
theorem path_and_fileName_of_named {name : Name} {f : Fixture}
    (h : (of? sources path).map (·.withFileName name) = some f) :
    f.path = path ∧ f.fileName = name := by
  obtain ⟨g, hg, rfl⟩ := Option.map_eq_some_iff.1 h
  obtain ⟨_, -, rfl⟩ := Option.map_eq_some_iff.1 hg
  exact ⟨rfl, rfl⟩

/-- A path with an extension has a file name, and so it has a fixture. -/
theorem isSome_of?_of_extension {ext : Name} (h : path.extension? = some ext) :
    (of? sources path).isSome := by
  obtain ⟨name, hname, -⟩ := Option.bind_eq_some_iff.1 h
  simp [of?, hname]

end Fixture

namespace Discovery

/-- An entry of the directory `sources` leads to the source file `path`, and is selected. -/
structure Eligible (fs : FileSystem) (sources : Path) (filter : Filter) (name : Name)
    (path : Path) : Prop where
  canonical : fs.canonical (sources.join name) = .ok path
  isFile : fs.isFile path = true
  extension : path.extension? = some Fixture.extension
  admits : filter.admits name = true

variable {fs fs' : FileSystem} {sources : Path} {filter : Filter} {names : List Name}

/-! ### Entries -/

theorem fixture?_eq_some_iff {name : Name} {f : Fixture} :
    fixture? fs sources filter name = some f ↔
      Eligible fs sources filter name f.path ∧
        (Fixture.of? sources f.path).map (·.withFileName name) = some f := by
  rw [fixture?]
  constructor
  · intro h
    split at h
    · simp at h
    · rename_i path hcanonical
      split at h
      · rename_i hcond
        have hpath : f.path = path := (Fixture.path_and_fileName_of_named h).1
        simp only [Bool.and_eq_true, beq_iff_eq] at hcond
        exact hpath ▸ ⟨⟨hcanonical, hcond.1.1, hcond.1.2, hcond.2⟩, h⟩
      · simp at h
  · rintro ⟨he, hof⟩
    simp [he.canonical, he.isFile, he.extension, he.admits, hof]

theorem fileName_of_fixture? {name : Name} {f : Fixture}
    (h : fixture? fs sources filter name = some f) : f.fileName = name := by
  exact (Fixture.path_and_fileName_of_named (fixture?_eq_some_iff.1 h).2).2

/-- No eligible entry is passed over. -/
theorem Eligible.exists_fixture {name : Name} {path : Path}
    (h : Eligible fs sources filter name path) :
    ∃ f, fixture? fs sources filter name = some f ∧ f.path = path := by
  obtain ⟨g, hg⟩ := Option.isSome_iff_exists.1 (Fixture.isSome_of?_of_extension h.extension)
  have hof : (Fixture.of? sources path).map (·.withFileName name) =
      some (g.withFileName name) := by rw [hg, Option.map_some]
  have hpath := (Fixture.path_and_fileName_of_named hof).1
  exact ⟨_, fixture?_eq_some_iff.2 (hpath.symm ▸ ⟨h, hof⟩), hpath⟩

/-! ### Order -/

theorem before_iff {f g : Fixture} : before f g = true ↔
    f.fileName < g.fileName ∨ f.fileName = g.fileName ∧ f.path.parts ≤ g.path.parts := by
  simp [before]

theorem before_trans (f g h : Fixture) (hfg : before f g = true) (hgh : before g h = true) :
    before f h = true := by
  rw [before_iff] at *
  rcases hfg with hfg | ⟨hfg, hfg'⟩
  · rcases hgh with hgh | ⟨hgh, -⟩
    · exact .inl (List.lt_trans hfg hgh)
    · exact .inl (hgh ▸ hfg)
  · rcases hgh with hgh | ⟨hgh, hgh'⟩
    · exact .inl (hfg ▸ hgh)
    · exact .inr ⟨hfg.trans hgh, List.le_trans hfg' hgh'⟩

theorem before_total (f g : Fixture) : (before f g || before g f) = true := by
  rw [Bool.or_eq_true, before_iff, before_iff]
  rcases List.le_total f.fileName g.fileName with h | h
  · rcases List.le_iff_lt_or_eq.1 h with h | h
    · exact .inl (.inl h)
    · exact (List.le_total f.path.parts g.path.parts).imp (.inr ⟨h, ·⟩) (.inr ⟨h.symm, ·⟩)
  · rcases List.le_iff_lt_or_eq.1 h with h | h
    · exact .inr (.inl h)
    · exact (List.le_total f.path.parts g.path.parts).imp (.inr ⟨h.symm, ·⟩) (.inr ⟨h, ·⟩)

theorem fileName_le_of_before {f g : Fixture} (h : before f g = true) :
    f.fileName ≤ g.fileName := by
  rcases before_iff.1 h with h | h
  · exact List.le_of_lt h
  · exact h.1 ▸ List.le_refl _

theorem pairwise_before_among :
    (among fs sources filter names).Pairwise fun f g => before f g = true :=
  List.pairwise_mergeSort before_trans before_total _

/-- The fixtures in order are determined by their entries: a fixture is determined by its name. -/
theorem eq_among {found : List Fixture} (sorted : found.Pairwise fun f g => before f g = true)
    (perm : found.Perm (names.filterMap (fixture? fs sources filter))) :
    found = among fs sources filter names := by
  have hperm : found.Perm (among fs sources filter names) :=
    perm.trans (List.mergeSort_perm _ _).symm
  have hfixture : ∀ f ∈ found, fixture? fs sources filter f.fileName = some f := by
    intro f hf
    obtain ⟨name, -, hname⟩ := List.mem_filterMap.1 (perm.mem_iff.1 hf)
    rwa [fileName_of_fixture? hname]
  refine hperm.eq_of_pairwise ?_ sorted pairwise_before_among
  intro f g hf hg hfg hgf
  have hname : f.fileName = g.fileName :=
    List.le_antisymm (fileName_le_of_before hfg) (fileName_le_of_before hgf)
  have hg' := hfixture g (hperm.mem_iff.2 hg)
  rw [← hname, hfixture f hf] at hg'
  exact Option.some.inj hg'

theorem among_perm {order : List Name} (perm : order.Perm names) :
    among fs sources filter order = among fs sources filter names :=
  eq_among pairwise_before_among ((List.mergeSort_perm _ _).trans (perm.filterMap _))

/-! ### The list -/

theorem mem_among_iff {f : Fixture} :
    f ∈ among fs sources filter names ↔ f.fileName ∈ names ∧
      Eligible fs sources filter f.fileName f.path ∧
        (Fixture.of? sources f.path).map (·.withFileName f.fileName) = some f := by
  rw [among, List.mem_mergeSort, List.mem_filterMap, ← fixture?_eq_some_iff]
  constructor
  · rintro ⟨name, hmem, hname⟩
    obtain rfl := fileName_of_fixture? hname
    exact ⟨hmem, hname⟩
  · rintro ⟨hmem, hname⟩
    exact ⟨_, hmem, hname⟩

theorem nodup_map_fileName (distinct : names.Nodup) :
    ((among fs sources filter names).map Fixture.fileName).Nodup := by
  have hfilter : (names.filterMap (fixture? fs sources filter)).map Fixture.fileName =
      names.filter fun name => (fixture? fs sources filter name).isSome := by
    rw [List.map_filterMap, ← List.filterMap_eq_filter]
    refine List.filterMap_congr fun name _ => ?_
    cases hname : fixture? fs sources filter name with
    | none => simp [Option.guard, hname]
    | some f => simp [Option.guard, hname, fileName_of_fixture? hname]
  rw [among, ((List.mergeSort_perm _ _).map _).nodup_iff, hfilter]
  exact distinct.filter _

/-- Fixtures of a directory with distinct entries are in strict order. -/
theorem pairwise_among (distinct : names.Nodup) :
    (among fs sources filter names).Pairwise fun f g => f.fileName < g.fileName := by
  have hnodup : ((among fs sources filter names).map Fixture.fileName).Nodup :=
    nodup_map_fileName distinct
  refine (pairwise_before_among.and (List.pairwise_map.1 hnodup)).imp fun {f g} h => ?_
  exact (List.le_iff_lt_or_eq.1 (fileName_le_of_before h.1)).resolve_right h.2

theorem among_relisted (h : FileSystem.Relisted fs fs') (order : List Name) :
    among fs' sources filter order = among fs sources filter order := by
  have hfixture : fixture? fs' sources filter = fixture? fs sources filter := by
    funext name
    simp only [fixture?, h.canonical, h.isFile]
  rw [among, among, hfixture]

theorem discover_eq_ok_iff {found : List Fixture} :
    discover fs sources filter = .ok found ↔
      ∃ names, fs.readDirectory sources = .ok names ∧ among fs sources filter names = found := by
  rw [discover]
  cases fs.readDirectory sources with
  | error e => simp
  | ok names => simp

/-- The fixtures of a directory with distinct entries are its eligible entries, each once and under
its own name, in the strict order of the names.  No eligible entry is without a fixture.  Neither
the list nor a run over it depends on the order in which directories are listed. -/
theorem discover_exact (fs : FileSystem) (sources : Path) (filter : Filter) (names : List Name)
    (hnames : fs.readDirectory sources = .ok names) (distinct : names.Nodup) :
    ∃ found, discover fs sources filter = .ok found ∧
      (∀ f, f ∈ found ↔ f.fileName ∈ names ∧
        Eligible fs sources filter f.fileName f.path ∧
          (Fixture.of? sources f.path).map (·.withFileName f.fileName) = some f) ∧
      (∀ name ∈ names, ∀ path, Eligible fs sources filter name path →
        (Fixture.of? sources path).isSome ∧
          ∃ f ∈ found, f.fileName = name ∧ f.path = path ∧ ∀ g ∈ found, g.fileName = name → g = f) ∧
      found.Pairwise (fun f g => f.fileName < g.fileName) ∧
      (∀ order, order.Perm names → among fs sources filter order = found) ∧
      ∀ fs', FileSystem.Relisted fs fs' → discover fs' sources filter = .ok found ∧
        ∀ exec, Run.fixtures fs' exec sources filter = Run.fixtures fs exec sources filter := by
  have hfound : discover fs sources filter = .ok (among fs sources filter names) :=
    discover_eq_ok_iff.2 ⟨names, hnames, rfl⟩
  refine ⟨among fs sources filter names, hfound, fun f => mem_among_iff, ?_,
    pairwise_among distinct, fun order perm => among_perm perm, ?_⟩
  · intro name hname path he
    obtain ⟨f, hf, rfl⟩ := he.exists_fixture
    obtain rfl := fileName_of_fixture? hf
    have hmem : f ∈ among fs sources filter names := by
      rw [among, List.mem_mergeSort]
      exact List.mem_filterMap.2 ⟨_, hname, hf⟩
    refine ⟨Fixture.isSome_of?_of_extension he.extension, f, hmem, rfl, rfl, ?_⟩
    intro g hg hgname
    exact List.inj_on_of_nodup_map (nodup_map_fileName distinct) hg hmem hgname
  · intro fs' hrelisted
    obtain ⟨order, horder, perm⟩ := hrelisted.readDirectory hnames
    have hfound' : discover fs' sources filter = .ok (among fs sources filter names) :=
      discover_eq_ok_iff.2 ⟨order, horder, (among_relisted hrelisted order).trans (among_perm perm)⟩
    refine ⟨hfound', fun exec => ?_⟩
    rw [Run.fixtures_of_discover hfound, Run.fixtures_of_discover hfound']
    exact Run.remaining_eq_of_agrees
      (fun f _ => ⟨hrelisted.isFile _, hrelisted.readText _, rfl⟩) .empty

/-! ### A sample directory -/

/-- A name made of a text. -/
def nameOf (text : String) : Name := Text.Utf8.encode text.toList

/-- The name of a source file that is no text. -/
def rawName : Name := 0xE9 :: nameOf ".las"

/-- A directory `/s` with links: `x.txt` and `z.las` lead to the same source file, `gone.las` leads
nowhere, and `n.las` to a file that is no source.  Neither the directory `d.las` nor the file `.las`
is a source file. -/
def linkedFiles : FileSystem :=
  ⟨[([nameOf "s"], .directory), ([nameOf "t"], .directory),
    ([nameOf "s", nameOf "z.las"], .link (.ofString "/t/common.las")),
    ([nameOf "s", nameOf "gone.las"], .link (.ofString "nowhere")),
    ([nameOf "s", rawName], .file [] false), ([nameOf "s", nameOf ".las"], .file [] false),
    ([nameOf "s", nameOf "x.txt"], .link (.ofString "../t/common.las")),
    ([nameOf "s", nameOf "a.b.las"], .file [] false), ([nameOf "s", nameOf "d.las"], .directory),
    ([nameOf "s", nameOf "n.las"], .link (.ofString "/t/notes")),
    ([nameOf "t", nameOf "common.las"], .file [] false),
    ([nameOf "t", nameOf "notes"], .file [] false)], []⟩

/-- The names of the entries of the directory `/s`, in the order in which they are listed. -/
def linkedNames : List Name :=
  [nameOf "z.las", nameOf "gone.las", rawName, nameOf ".las", nameOf "x.txt", nameOf "a.b.las",
    nameOf "d.las", nameOf "n.las"]

/-- In the directory with links four entries are fixtures.  They are found in the same order when
the nodes are held the other way round. -/
theorem discover_linked :
    ∃ found, discover linkedFiles (.ofString "/s") .all = .ok found ∧
      found.map Fixture.fileName = [nameOf "a.b.las", nameOf "x.txt", nameOf "z.las", rawName] ∧
      found.Pairwise (fun f g => f.fileName < g.fileName) ∧
      discover ⟨linkedFiles.nodes.reverse, []⟩ (.ofString "/s") .all = .ok found := by
  have hlist : (discover linkedFiles (.ofString "/s") .all).map (·.map Fixture.fileName) =
      .ok [nameOf "a.b.las", nameOf "x.txt", nameOf "z.las", rawName] := by cbv
  obtain ⟨found, hfound, -, -, hsorted, -, hrelisted⟩ :=
    discover_exact linkedFiles (.ofString "/s") .all linkedNames (by cbv) (by decide)
  rw [hfound] at hlist
  have hperm := List.reverse_perm linkedFiles.nodes
  have hreversed := hrelisted _ (FileSystem.relisted_of_perm hperm (by decide) [])
  exact ⟨found, hfound, Except.ok.inj hlist, hsorted, hreversed.1⟩

end Discovery

end Touchstone
