import Touchstone.Proofs.Suite.Plan

/-!
# The course of the run of a suite

The run of a suite is rejected before any fixture is run, or it is stopped by a fixture, or all
fixtures have been run and its report cannot be written, or it is complete.

## Main definitions

* `Touchstone.Reporter.fixturesOf` : the run of the fixtures of a plan.
* `Touchstone.World.Quiet` : the interpreter leaves the files alone.
* `Touchstone.SuiteCourse` : what the run of a suite leaves, by the way in which it ended.

## Main results

* `Touchstone.Reporter.remaining_files` : what the run of fixtures does with the files.
* `Touchstone.course_suite` : every run of a suite ends in one of the four ways.
* `Touchstone.suite_ok_iff` : when the run of a suite ends well.
-/

namespace Touchstone

variable {σ : Type} {r : Reporter σ} {held : σ} {after : Progress σ} {fs : FileSystem} {w : World}
  {c : Config} {p : Plan} {s : Summary}

/-! ### Files -/

section Files

variable {run : Interpreter} {holds : FileSystem → Prop}
  (step : ∀ {fs} turn f, holds fs → holds (run fs turn f).2)

include step

/-- What the interpreter leaves as it was is so after a fixture. -/
theorem Reporter.fixture_files (f : Fixture) {p : Progress σ} (h : holds p.files) :
    holds (r.fixture run f p).2.files := by
  have hconclude : ∀ result (q : Progress σ), (r.conclude f result q).2.files = q.files := by
    intro result q
    cases result <;> rfl
  rw [Reporter.fixture]
  split
  · split
    · exact h
    · rw [Reporter.judge, hconclude]
      exact step p.invoked.length f h
  · rwa [hconclude]

/-- What the interpreter leaves as it was is so after all fixtures. -/
theorem Reporter.remaining_files (s : Summary) (found : List Fixture) {p : Progress σ}
    (h : holds p.files) : holds (r.remaining run s found p).2.files := by
  induction found generalizing s p with
  | nil => exact h
  | cons f rest ih =>
    have hfirst := Reporter.fixture_files (r := r) step f h
    rw [Reporter.remaining]
    split
    · rename_i hfixture
      rwa [hfixture] at hfirst
    · rename_i hfixture
      rw [hfixture] at hfirst
      exact ih _ hfirst

end Files

/-! ### Courses -/

/-- The run of the fixtures of a plan. -/
def Reporter.fixturesOf (r : Reporter σ) (w : World) (c : Config) (p : Plan) (held : σ) :
    Except Stop Summary × Progress σ :=
  r.fixtures (w.interpreter p.executable c.timeout) p.sources p.filter (.start held w.files)

/-- What the run of a suite leaves, by the way in which it ended. -/
inductive SuiteCourse (r : Reporter σ) (w : World) (c : Config) (held : σ) :
    Except Stop Summary × Progress σ → Prop
  | rejected {stop : Stop} (rejects : plan w.files c = .error stop) :
      SuiteCourse r w c held (.error stop, .start held w.files)
  | stopped {p : Plan} {stop : Stop} {after : Progress σ} (plans : plan w.files c = .ok p)
      (stops : r.fixturesOf w c p held = (.error stop, after)) :
      SuiteCourse r w c held (.error stop, after)
  | unreported {p : Plan} {s : Summary} {after : Progress σ} {path : Path} {cause : Failure}
      {files : FileSystem} (plans : plan w.files c = .ok p)
      (runs : r.fixturesOf w c p held = (.ok s, after)) (asked : c.report = some path)
      (fails : writeReport after.files path (.of w.now p.executable p.sources s) =
        (.error cause, files)) :
      SuiteCourse r w c held (.error (.failure cause), { after with files })
  | complete {p : Plan} {s : Summary} {after : Progress σ} (plans : plan w.files c = .ok p)
      (runs : r.fixturesOf w c p held = (.ok s, after))
      (reports : ∀ path, c.report = some path →
        (writeReport after.files path (.of w.now p.executable p.sources s)).1 = .ok ()) :
      SuiteCourse r w c held (.ok s, { after with files := (report after.files w.now c p s).2 })

/-- What the interpreter leaves as it was is so after the run of the fixtures of a plan. -/
theorem Reporter.fixturesOf_files (holds : FileSystem → Prop)
    (step : ∀ {occasion fs program source}, holds fs → holds (w.leave occasion fs program source))
    (h : holds w.files) (c : Config) (p : Plan) : holds (r.fixturesOf w c p held).2.files := by
  rw [Reporter.fixturesOf, Reporter.fixtures]
  split
  · exact h
  · exact Reporter.remaining_files (fun _ _ => step) .empty _ h

/-- The interpreter leaves the files alone. -/
def World.Quiet (w : World) : Prop :=
  ∀ occasion fs program source, w.leave occasion fs program source = fs

theorem World.Quiet.files (quiet : w.Quiet) (c : Config) (p : Plan) :
    (r.fixturesOf w c p held).2.files = w.files :=
  Reporter.fixturesOf_files (· = w.files) (fun h => (quiet _ _ _ _).trans h) rfl c p

theorem suite_of_plan (plans : plan w.files c = .ok p) :
    r.suite w c held =
      match r.fixturesOf w c p held with
      | (.error stop, after) => (.error stop, after)
      | (.ok s, after) =>
        ((report after.files w.now c p s).1,
          { after with files := (report after.files w.now c p s).2 }) := by
  rw [Reporter.suite, plans]
  rfl

/-- The report leaves the files that writing it leaves. -/
theorem report_snd {fs : FileSystem} {now : Nat} {path : Path} (asked : c.report = some path) :
    (report fs now c p s).2 = (writeReport fs path (.of now p.executable p.sources s)).2 := by
  rw [report, asked]
  dsimp only
  rcases writeReport fs path (.of now p.executable p.sources s) with ⟨_ | _, files⟩ <;> rfl

/-- The report of a complete run is either written, if one is asked for, or fails. -/
theorem report_cases (fs : FileSystem) (now : Nat) (c : Config) (p : Plan) (s : Summary) :
    (∃ path cause files, c.report = some path ∧
      writeReport fs path (.of now p.executable p.sources s) = (.error cause, files) ∧
      report fs now c p s = (.error (.failure cause), files)) ∨
    (∀ path, c.report = some path →
      (writeReport fs path (.of now p.executable p.sources s)).1 = .ok ()) ∧
      (report fs now c p s).1 = .ok s := by
  cases hpath : c.report with
  | none => exact .inr (by simp [report, hpath])
  | some path =>
    rcases hwrite : writeReport fs path (.of now p.executable p.sources s) with ⟨_ | _, files⟩
    · exact .inl ⟨path, _, files, rfl, hwrite, by simp [report, hpath, hwrite]⟩
    · exact .inr ⟨by simp [hwrite], by simp [report, hpath, hwrite]⟩

/-- Every run of a suite has a course. -/
theorem course_suite (r : Reporter σ) (w : World) (c : Config) (held : σ) :
    SuiteCourse r w c held (r.suite w c held) := by
  cases hplan : plan w.files c with
  | error stop =>
    rw [Reporter.suite, hplan]
    exact .rejected hplan
  | ok p =>
    rw [suite_of_plan hplan]
    rcases hrun : r.fixturesOf w c p held with ⟨stop | s, after⟩
    · exact .stopped hplan hrun
    · rcases report_cases after.files w.now c p s with
        ⟨path, cause, files, hpath, hwrite, hreport⟩ | ⟨hwrites, hreport⟩
      · simp only [hreport]
        exact .unreported hplan hrun hpath hwrite
      · simp only [hreport]
        exact .complete hplan hrun hwrites

/-- A run of a suite ends well if its plan holds, its fixtures can be run and its report is written.
-/
theorem suite_ok_iff : (r.suite w c held).1 = .ok s ↔ ∃ p after, plan w.files c = .ok p ∧
    r.fixturesOf w c p held = (.ok s, after) ∧ ∀ path, c.report = some path →
      (writeReport after.files path (.of w.now p.executable p.sources s)).1 = .ok () := by
  constructor
  · intro h
    have hc := course_suite r w c held
    generalize r.suite w c held = done at h hc
    cases hc with
    | rejected | stopped | unreported => simp at h
    | complete plans runs reports =>
      obtain rfl := Except.ok.inj h
      exact ⟨_, _, plans, runs, reports⟩
  · rintro ⟨p, after, plans, runs, reports⟩
    rw [suite_of_plan plans, runs]
    rcases report_cases after.files w.now c p s with ⟨path, cause, files, hpath, hwrite, -⟩ |
      ⟨-, hreport⟩
    · have h := reports path hpath
      rw [hwrite] at h
      contradiction
    · exact hreport

end Touchstone
