import Touchstone.Proofs.Discovery.Pairing
import Touchstone.Proofs.Report.Decoding
import Touchstone.Proofs.Text.Repair

/-!
# The path of a fixture in its report

A report shows paths with slashes in place of backslashes.  A name can hold a backslash, so this is
not without loss: the path of a file under such a name can be shown as that of a file in a deeper
directory.  Paths that are text are confused in this way only, and so neither two files of one
directory are, nor two paths without backslashes.

## Main definitions

* `Touchstone.Path.slashed` : a byte with a slash in place of a backslash.

## Main results

* `Touchstone.Path.normalized_eq_iff` : the paths that are shown alike.
* `Touchstone.Discovery.shown_apart` : the fixtures of a directory in their reports.
* `Touchstone.Discovery.shown_alike` : two fixtures of a directory that are shown alike.
-/

namespace Touchstone

open Text.Utf8 (Valid encode)

namespace Path

/-! ### Backslashes -/

/-- The byte that is shown as a slash. -/
def backslash : UInt8 := '\\'.toUInt8

/-- A byte with a slash in place of a backslash. -/
def slashed (b : UInt8) : UInt8 := if b = backslash then separator else b

/-- A byte with a backslash in place of a slash. -/
def unslashed (b : UInt8) : UInt8 := if b = separator then backslash else b

/-- Where no byte is a slash, the bytes are told from those with slashes in place of backslashes. -/
theorem map_unslashed {name : Name} (h : separator ∉ name) :
    (name.map slashed).map unslashed = name := by
  rw [List.map_map]
  refine (List.map_congr_left fun b hb => ?_).trans (List.map_id name)
  have hne : b ≠ separator := fun heq => h (heq ▸ hb)
  by_cases hback : b = backslash
  · subst hback
    rfl
  · simp [slashed, unslashed, hback, hne]

theorem map_slashed_of_notMem {bytes : List UInt8} (h : backslash ∉ bytes) :
    bytes.map slashed = bytes := by
  refine (List.map_congr_left fun b hb => ?_).trans (List.map_id bytes)
  have hne : b ≠ backslash := fun heq => h (heq ▸ hb)
  exact if_neg hne

/-- The byte of the backslash stands in the UTF-8 form of no other character. -/
theorem eq_of_backslash_mem {c : Char} (h : backslash ∈ String.utf8EncodeChar c) : c = '\\' := by
  have hbyte : ∀ n < 256, backslash = UInt8.ofNat n → n = 92 := by
    intro n hn heq
    have h := congrArg UInt8.toNat heq
    rw [Text.Utf8.toNat_ofNat hn] at h
    exact h.symm
  have hval : c.val.toNat = c.toNat := rfl
  simp only [String.utf8EncodeChar, hval] at h
  split at h
  · have hnat : c.toNat = 92 := hbyte _ (by omega) (List.mem_singleton.1 h)
    rw [← Char.ofNat_toNat c, hnat]
  · -- all bytes of a longer form are beyond those of single bytes
    split at h
    · simp only [List.mem_cons, List.not_mem_nil, or_false] at h
      rcases h with h | h <;> have hnat := hbyte _ (by omega) h <;> omega
    · split at h
      · simp only [List.mem_cons, List.not_mem_nil, or_false] at h
        rcases h with h | h | h <;> have hnat := hbyte _ (by omega) h <;> omega
      · simp only [List.mem_cons, List.not_mem_nil, or_false] at h
        rcases h with h | h | h | h <;> have hnat := hbyte _ (by omega) h <;> omega

theorem encode_map_slashed (text : List Char) :
    encode (text.map fun c => if c = '\\' then '/' else c) = (encode text).map slashed := by
  rw [encode, encode, List.flatMap_map, List.map_flatMap]
  refine List.flatMap_congr fun c _ => ?_
  by_cases hc : c = '\\'
  · subst hc
    decide
  · rw [if_neg hc, map_slashed_of_notMem (mt eq_of_backslash_mem hc)]

/-- Paths that are text are shown alike if they agree once every backslash is a slash. -/
theorem normalized_eq_iff {p q : Path} (hp : Valid p.bytes) (hq : Valid q.bytes) :
    p.normalized = q.normalized ↔ p.bytes.map slashed = q.bytes.map slashed := by
  obtain ⟨text, htext⟩ := hp
  obtain ⟨text', htext'⟩ := hq
  rw [normalized, normalized, htext, htext', Text.Utf8.decodeLossy_encode,
    Text.Utf8.decodeLossy_encode, String.ofList_inj, ← encode_map_slashed, ← encode_map_slashed,
    Text.Utf8.encode_injective.eq_iff]

/-! ### Files of one directory -/

/-- The path of an entry ends in its name, and what stands before is the same for all entries. -/
theorem exists_bytes_join (dir : Path) :
    ∃ front, ∀ name, separator ∉ name → (dir.join name).bytes = front ++ name := by
  have hhead : ∀ name : Name, separator ∉ name → name.head? ≠ some separator :=
    fun name h hslash => h (List.mem_of_mem_head? hslash)
  by_cases hend : dir.bytes.isEmpty ∨ dir.bytes.getLast? = some separator
  · exact ⟨dir.bytes, fun name h => by rw [join, if_neg (hhead name h), if_pos hend]⟩
  · refine ⟨dir.bytes ++ [separator], fun name h => ?_⟩
    rw [join, if_neg (hhead name h), if_neg hend, List.append_assoc, List.singleton_append]

/-- Canonical paths of files in one directory are told apart although backslashes are slashes. -/
theorem IsCanonical.eq_of_map_slashed {p q : Path} {name name' : Name} (hp : p.IsCanonical)
    (hq : q.IsCanonical) (hname : p.fileName? = some name) (hname' : q.fileName? = some name')
    (parent : p.parent? = q.parent?) (h : p.bytes.map slashed = q.bytes.map slashed) : p = q := by
  obtain ⟨dir, -, proper, hpath, hparent⟩ := hp.eq_join hname
  obtain ⟨dir', -, proper', hpath', hparent'⟩ := hq.eq_join hname'
  obtain rfl : dir = dir' := by rwa [hparent, hparent', Option.some.injEq] at parent
  obtain ⟨front, hfront⟩ := exists_bytes_join dir
  rw [hpath, hpath', hfront _ proper.noSlash, hfront _ proper'.noSlash, List.map_append,
    List.map_append, List.append_cancel_left_eq] at h
  rw [hpath, hpath', ← map_unslashed proper.noSlash, h, map_unslashed proper'.noSlash]

end Path

/-! ### Fixtures in their reports -/

namespace Discovery

variable {fs : FileSystem} {sources : Path} {filter : Filter} {found : List Fixture}

/-- Two fixtures of a directory with different paths that are text.  Their reports, and what the
texts of these say, show the same path exactly if the paths agree once every backslash is a slash.
So they show different paths if neither path has a backslash.  They also do if the two files stand
in one directory, where relative paths start from a place with proper names. -/
theorem shown_apart (fs : FileSystem) (sources : Path) (filter : Filter) (found : List Fixture)
    (discovers : discover fs sources filter = .ok found) :
    ∀ f ∈ found, ∀ g ∈ found, f.path ≠ g.path → Valid f.path.bytes → Valid g.path.bytes →
      ∀ o o' : Outcome,
        ((FixtureReport.of f o).fixturePath = (FixtureReport.of g o').fixturePath ↔
          f.path.bytes.map Path.slashed = g.path.bytes.map Path.slashed) ∧
        ((FixtureReport.of f o).value.at? "fixture_path" =
            (FixtureReport.of g o').value.at? "fixture_path" ↔
          f.path.bytes.map Path.slashed = g.path.bytes.map Path.slashed) ∧
        (Path.backslash ∉ f.path.bytes → Path.backslash ∉ g.path.bytes →
          (FixtureReport.of f o).fixturePath ≠ (FixtureReport.of g o').fixturePath) ∧
        ((∀ name ∈ fs.current, Path.IsProper name) → f.path.parent? = g.path.parent? →
          (FixtureReport.of f o).fixturePath ≠ (FixtureReport.of g o').fixturePath) := by
  intro f hf g hg hne hvalid hvalid' o o'
  have hshown := Path.normalized_eq_iff hvalid hvalid'
  refine ⟨hshown, ?_, fun hback hback' halike => ?_, fun proper parent halike => ?_⟩
  · rw [← hshown]
    simp [FixtureReport.value, Json.Value.at?, List.lookup, FixtureReport.of]
  · have hbytes := hshown.1 halike
    rw [Path.map_slashed_of_notMem hback, Path.map_slashed_of_notMem hback'] at hbytes
    exact hne (congrArg Path.mk hbytes)
  · obtain ⟨hcanonical, hextension⟩ := isCanonical_of_mem discovers (fun _ => proper) hf
    obtain ⟨hcanonical', hextension'⟩ := isCanonical_of_mem discovers (fun _ => proper) hg
    obtain ⟨_, hname, -⟩ := Option.bind_eq_some_iff.1 hextension
    obtain ⟨_, hname', -⟩ := Option.bind_eq_some_iff.1 hextension'
    exact hne (hcanonical.eq_of_map_slashed hcanonical' hname hname' parent (hshown.1 halike))

/-- In the directory with links, a file of the directory and the one that a link leads to are
shown apart. -/
theorem shown_apart_linked : discover linkedFiles (.ofString "/s") .all = .ok linkedFixtures ∧
    ∃ f ∈ linkedFixtures, ∃ g ∈ linkedFixtures, f.fileName = nameOf "a.b.las" ∧
      g.fileName = nameOf "z.las" ∧ f.path ≠ g.path ∧ Valid f.path.bytes ∧ Valid g.path.bytes ∧
      (FixtureReport.of f .passed).fixturePath ≠ (FixtureReport.of g .passed).fixturePath := by
  refine ⟨discover_linkedFiles, linkedFixtures[0], by decide, linkedFixtures[2], by decide, rfl,
    rfl, by decide, ⟨_, rfl⟩, ⟨_, rfl⟩, ?_⟩
  exact (shown_apart linkedFiles (.ofString "/s") .all linkedFixtures discover_linkedFiles _
    (by decide) _ (by decide) (by decide) ⟨_, rfl⟩ ⟨_, rfl⟩ .passed .passed).2.2.1 (by decide)
    (by decide)

/-! ### Paths that are shown alike -/

/-- A directory `/s` with a file of which the name has a backslash.  The link `x.las` leads to a
file in the directory `a` below. -/
def slashedFiles : FileSystem :=
  ⟨[([nameOf "s"], .directory), ([nameOf "s", nameOf "a"], .directory),
    ([nameOf "s", nameOf "a\\b.las"], .file [] false),
    ([nameOf "s", nameOf "x.las"], .link (.ofString "a/b.las")),
    ([nameOf "s", nameOf "a", nameOf "b.las"], .file [] false)], []⟩

/-- The fixtures of the directory with a backslash. -/
def slashedFixtures : List Fixture :=
  [⟨.ofString "/s/a\\b.las", nameOf "a\\b.las", .ofString "/s/a\\b_expected.txt"⟩,
    ⟨.ofString "/s/a/b.las", nameOf "x.las", .ofString "/s/b_expected.txt"⟩]

/-- The file with the backslash in its name is shown as the file that the link leads to. -/
theorem shown_alike : discover slashedFiles (.ofString "/s") .all = .ok slashedFixtures ∧
    ∃ f ∈ slashedFixtures, ∃ g ∈ slashedFixtures, f.path ≠ g.path ∧ Valid f.path.bytes ∧
      Valid g.path.bytes ∧ ∀ o o' : Outcome,
        (FixtureReport.of f o).fixturePath = (FixtureReport.of g o').fixturePath := by
  refine ⟨by cbv, slashedFixtures[0], by decide, slashedFixtures[1], by decide, by decide, ⟨_, rfl⟩,
    ⟨_, rfl⟩, fun o o' => ?_⟩
  exact (Path.normalized_eq_iff ⟨_, rfl⟩ ⟨_, rfl⟩).2 (by decide)

end Discovery

end Touchstone
