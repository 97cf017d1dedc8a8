import Touchstone.Proofs.Discovery.Listing
import Touchstone.Proofs.Path.Canonical

/-!
# Fixtures and their expectations

The expectation of a fixture stands in the directory of the sources.  Its name is that of the source
file, with an ending of its own in place of the extension.  A name is told by its two sides around
the last dot, so source files of one directory share no expectation; and the ending of expectations
is none of source files, so no expectation is itself a source file.

## Main definitions

* `Touchstone.Fixture.IsOrdinary` : a fixture whose entry is the source file itself.

## Main results

* `Touchstone.Path.eq_of_sides?` : the two sides of a name around its last dot.
* `Touchstone.Discovery.pairing` : the expectations of the fixtures of a directory.
-/

namespace Touchstone

/-! ### Stems and endings -/

namespace Path

variable {name stem extension : Name} {p : Path}

/-- A name is made of its two sides with the dot between them, and its stem is not empty. -/
theorem eq_of_sides? (h : sides? name = some (stem, extension)) :
    name = stem ++ dot :: extension ∧ stem ≠ [] := by
  rw [sides?, Option.ite_none_left_eq_some, not_or, Option.some.injEq, Prod.mk.injEq] at h
  obtain ⟨⟨hstem, -⟩, rfl, rfl⟩ := h
  refine ⟨?_, by simpa using hstem⟩
  obtain ⟨b, rest, hdrop⟩ : ∃ b rest, name.reverse.dropWhile (· ≠ dot) = b :: rest := by
    refine List.exists_cons_of_ne_nil fun hnil => hstem ?_
    rw [hnil]
    rfl
  have hdot : b = dot := by
    have hhead := List.head?_dropWhile_not (· ≠ dot) name.reverse
    rw [hdrop] at hhead
    simpa using hhead
  rw [hdot] at hdrop
  calc name = (name.reverse.takeWhile (· ≠ dot) ++ name.reverse.dropWhile (· ≠ dot)).reverse := by
        rw [List.takeWhile_append_dropWhile, List.reverse_reverse]
    _ = rest.reverse ++ dot :: (name.reverse.takeWhile (· ≠ dot)).reverse := by
        rw [List.reverse_append, hdrop, List.reverse_cons, List.append_assoc, List.singleton_append]
    _ = _ := by rw [hdrop, List.tail_cons]

theorem stemOf_of_sides? (h : sides? name = some (stem, extension)) : stemOf name = stem := by
  rw [stemOf, h]

/-- A proper name stays one when its extension is replaced by an ending that is not made of dots. -/
theorem IsProper.replace {ending : Name} {b : UInt8} (h : IsProper (stem ++ extension))
    (hslash : separator ∉ ending) (hb : b ∈ ending) (hdot : b ≠ dot) :
    IsProper (stem ++ ending) where
  notIdle := by
    have hmem : b ∈ stem ++ ending := List.mem_append_right _ hb
    rw [Bool.eq_false_iff]
    intro hidle
    rcases Bool.or_eq_true_iff.1 hidle with hnil | hhere
    · simp [List.isEmpty_iff.1 hnil] at hmem
    · rw [beq_iff_eq.1 hhere] at hmem
      exact hdot (List.mem_singleton.1 hmem)
  notAbove := by
    intro habove
    have hmem : b ∈ above := habove ▸ List.mem_append_right _ hb
    simp [above] at hmem
    exact hdot hmem
  noSlash := by
    rw [List.mem_append, not_or]
    exact ⟨fun hmem => h.noSlash (List.mem_append_left _ hmem), hslash⟩

end Path

/-! ### Fixtures -/

namespace Fixture

/-- The entry of a fixture is the source file itself, and no link to it. -/
def IsOrdinary (sources : Path) (f : Fixture) : Prop :=
  f.path.parent? = some sources ∧ f.path.fileName? = some f.fileName

/-- The expectation of a fixture stands in the directory of the sources, under the name of the
source file with another ending in place of the extension. -/
structure Paired (sources : Path) (f : Fixture) (stem : Name) : Prop where
  fileName : f.path.fileName? = some (stem ++ Path.dot :: extension)
  parent : f.expectation.parent? = some sources
  expectation : f.expectation.fileName? = some (stem ++ expectationEnding)

variable {sources : Path} {f g : Fixture} {stem : Name}

theorem exists_paired {name : Name} (directory : sources.IsCanonical)
    (canonical : f.path.IsCanonical) (hextension : f.path.extension? = some extension)
    (named : (of? sources f.path).map (·.withFileName name) = some f) :
    ∃ stem, Paired sources f stem := by
  obtain ⟨last, hlast, hsides⟩ := Option.bind_eq_some_iff.1 hextension
  obtain ⟨⟨stem, _⟩, hsides, rfl⟩ := Option.map_eq_some_iff.1 hsides
  obtain ⟨rfl, -⟩ := Path.eq_of_sides? hsides
  obtain ⟨-, -, hproper, -⟩ := canonical.eq_join hlast
  have hexpectation : f.expectation = sources.join (stem ++ expectationEnding) := by
    obtain ⟨g, hg, rfl⟩ := Option.map_eq_some_iff.1 named
    rw [of?, hlast, Option.map_some, Path.stemOf_of_sides? hsides] at hg
    rw [← Option.some.inj hg]
    rfl
  have hending : Path.IsProper (stem ++ expectationEnding) :=
    hproper.replace (by decide) (b := 't'.toUInt8) (by decide) (by decide)
  obtain ⟨-, hparent, hname⟩ := directory.join hending
  exact ⟨stem, hlast, hexpectation ▸ hparent, hexpectation ▸ hname⟩

/-- Source files of one directory are told apart by their expectations. -/
theorem Paired.path_eq {stem' : Name} (hf : Paired sources f stem) (hg : Paired sources g stem')
    (canonical : f.path.IsCanonical) (canonical' : g.path.IsCanonical)
    (parent : f.path.parent? = g.path.parent?) (same : f.expectation = g.expectation) :
    f.path = g.path := by
  have hstem : stem = stem' := by
    have hname := hg.expectation
    rw [← same, hf.expectation] at hname
    exact List.append_cancel_right (Option.some.inj hname)
  subst hstem
  obtain ⟨dir, -, -, hpath, hparent⟩ := canonical.eq_join hf.fileName
  obtain ⟨dir', -, -, hpath', hparent'⟩ := canonical'.eq_join hg.fileName
  rw [hparent, hparent', Option.some.injEq] at parent
  rw [hpath, hpath', parent]

/-- The ending of expectations is none of source files. -/
theorem Paired.expectation_ne {stem' : Name} (hf : Paired sources f stem)
    (hg : Paired sources g stem') : f.expectation ≠ g.path := by
  intro same
  have hname := hg.fileName
  rw [← same, hf.expectation] at hname
  have hlast := congrArg List.getLast? (Option.some.inj hname)
  rw [List.getLast?_append_of_ne_nil _ (by decide), List.getLast?_append_of_ne_nil _ (by decide)]
    at hlast
  exact absurd hlast (by decide)

end Fixture

namespace Discovery

variable {fs : FileSystem} {sources : Path} {filter : Filter} {found : List Fixture}

/-- The paths of fixtures are canonical. -/
theorem isCanonical_of_mem (discovers : discover fs sources filter = .ok found)
    (start : sources.isAbsolute = false → ∀ name ∈ fs.current, Path.IsProper name) {f : Fixture}
    (hf : f ∈ found) : f.path.IsCanonical ∧ f.path.extension? = some Fixture.extension := by
  obtain ⟨names, -, rfl⟩ := discover_eq_ok_iff.1 discovers
  obtain ⟨-, eligible, -⟩ := mem_among_iff.1 hf
  refine ⟨FileSystem.isCanonical_of_canonical eligible.canonical fun hrelative => start ?_,
    eligible.extension⟩
  rw [Bool.eq_false_iff] at hrelative ⊢
  exact fun habsolute => hrelative (FileSystem.isAbsolute_join habsolute _)

/-- A fixture of a canonical directory is paired with its expectation. -/
theorem paired_of_mem (canonical : fs.canonical sources = .ok sources)
    (discovers : discover fs sources filter = .ok found) {f : Fixture} (hf : f ∈ found) :
    f.path.IsCanonical ∧ ∃ stem, f.Paired sources stem := by
  have habsolute : sources.isAbsolute = true := by
    obtain ⟨place, -, rfl⟩ := FileSystem.canonical_eq_ok_iff.1 canonical
    rfl
  have start : sources.isAbsolute = false → ∀ name ∈ fs.current, Path.IsProper name :=
    fun hrelative => by simp [habsolute] at hrelative
  obtain ⟨hpath, hextension⟩ := isCanonical_of_mem discovers start hf
  obtain ⟨names, -, rfl⟩ := discover_eq_ok_iff.1 discovers
  obtain ⟨-, -, named⟩ := mem_among_iff.1 hf
  exact ⟨hpath, Fixture.exists_paired (FileSystem.isCanonical_of_canonical canonical start) hpath
    hextension named⟩

/-- The fixtures of a canonical directory and their expectations.  Each expectation stands directly
in the directory, under the name of the source file with its last `.las` replaced.  Source files
that stand directly in the directory share no expectation, so that ordinary fixtures with the same
expectation are the same.  No expectation is the source file of a fixture. -/
theorem pairing (fs : FileSystem) (sources : Path) (filter : Filter) (found : List Fixture)
    (canonical : fs.canonical sources = .ok sources)
    (discovers : discover fs sources filter = .ok found) :
    (∀ f ∈ found, ∃ stem, f.path.fileName? = some (stem ++ Path.dot :: Fixture.extension) ∧
      f.expectation.parent? = some sources ∧
        f.expectation.fileName? = some (stem ++ Fixture.expectationEnding)) ∧
    (∀ f ∈ found, ∀ g ∈ found, f.path.parent? = some sources → g.path.parent? = some sources →
      f.expectation = g.expectation → f.path = g.path) ∧
    (∀ f ∈ found, ∀ g ∈ found, f.IsOrdinary sources → g.IsOrdinary sources →
      f.expectation = g.expectation → f = g) ∧
    ∀ f ∈ found, ∀ g ∈ found, f.expectation ≠ g.path := by
  have hpaired := fun {f} => paired_of_mem (f := f) canonical discovers
  have hshared : ∀ f ∈ found, ∀ g ∈ found, f.path.parent? = some sources →
      g.path.parent? = some sources → f.expectation = g.expectation → f.path = g.path := by
    intro f hf g hg hparent hparent' same
    obtain ⟨hcanonical, stem, paired⟩ := hpaired hf
    obtain ⟨hcanonical', stem', paired'⟩ := hpaired hg
    exact paired.path_eq paired' hcanonical hcanonical' (hparent.trans hparent'.symm) same
  refine ⟨fun f hf => ?_, hshared, ?_, fun f hf g hg => ?_⟩
  · obtain ⟨-, stem, paired⟩ := hpaired hf
    exact ⟨stem, paired.fileName, paired.parent, paired.expectation⟩
  · rintro ⟨p, name, e⟩ hf ⟨p', name', e'⟩ hg ⟨hparent, hname⟩ ⟨hparent', hname'⟩ same
    have hpath := hshared _ hf _ hg hparent hparent' same
    simp only at hpath hname hname' same
    rw [← hpath, hname, Option.some.injEq] at hname'
    rw [hpath, hname', same]
  · obtain ⟨-, stem, paired⟩ := hpaired hf
    obtain ⟨-, stem', paired'⟩ := hpaired hg
    exact paired.expectation_ne paired'

/-- The fixtures of the directory with links.  Two links lead to one source file outside, and so
they share an expectation. -/
def linkedFixtures : List Fixture :=
  [⟨.ofString "/s/a.b.las", nameOf "a.b.las", .ofString "/s/a.b_expected.txt"⟩,
    ⟨.ofString "/t/common.las", nameOf "x.txt", .ofString "/s/common_expected.txt"⟩,
    ⟨.ofString "/t/common.las", nameOf "z.las", .ofString "/s/common_expected.txt"⟩,
    ⟨(Path.ofString "/s").join rawName, rawName,
      (Path.ofString "/s").join (0xE9 :: Fixture.expectationEnding)⟩]

theorem discover_linkedFiles :
    discover linkedFiles (.ofString "/s") .all = .ok linkedFixtures := by cbv

/-- None of the expectations in the directory with links is a source file. -/
theorem pairing_linked : linkedFiles.canonical (.ofString "/s") = .ok (.ofString "/s") ∧
    discover linkedFiles (.ofString "/s") .all = .ok linkedFixtures ∧
    ∀ f ∈ linkedFixtures, ∀ g ∈ linkedFixtures, f.expectation ≠ g.path := by
  have canonical : linkedFiles.canonical (.ofString "/s") = .ok (.ofString "/s") := by cbv
  exact ⟨canonical, discover_linkedFiles,
    (pairing linkedFiles (.ofString "/s") .all _ canonical discover_linkedFiles).2.2.2⟩

end Discovery

end Touchstone
