import Touchstone.Proofs.Run.Filtering
import Touchstone.Proofs.Suite.Course
import Touchstone.Proofs.Timeout.Waiting

/-!
# Green runs

The run of a suite is green if nothing at all went wrong: the paths and the filter can be used,
every fixture passed, and the report was written if one was asked for.  This is said here of the
files and the interpreter, without reference to the run.

The interpreter may change the files, so a fixture is judged on the files that it finds when its
turn comes.

## Main definitions

* `Touchstone.Passes` : fixtures pass one after the other.
* `Touchstone.Green` : nothing goes wrong when a suite is run.

## Main results

* `Touchstone.remaining_passed_iff` : a run of fixtures without a failure.
* `Touchstone.suite_stop_cause` : what a run does not survive.
* `Touchstone.exists_green_iff` : a run that does not crash ends with exit code zero if it is green.
-/

namespace Touchstone

variable {σ : Type} {r : Reporter σ} {held : σ} {p q : Progress σ} {run : Interpreter} {f : Fixture}

/-! ### Fixtures that all pass -/

/-- Fixtures pass one after the other.  When the turn comes to one, its expectation can be read, the
interpreter exits on it with code zero, and what it writes is what is expected.  In the end the
files are those that the interpreter has left. -/
inductive Passes (run : Interpreter) : Nat → FileSystem → List Fixture → FileSystem → Prop
  | nil {turn : Nat} {fs : FileSystem} : Passes run turn fs [] fs
  | cons {turn : Nat} {fs fs' files : FileSystem} {f : Fixture} {rest : List Fixture}
      {text : List Char} {inv : Invocation} (isFile : fs.isFile f.expectation = true)
      (readText : fs.readText f.expectation = .ok text)
      (answers : run fs turn f = (.ok inv, fs')) (status : inv.status = .code 0)
      (same : Text.trim inv.stdout = Text.trim text)
      (later : Passes run (turn + 1) fs' rest files) : Passes run turn fs (f :: rest) files

theorem verdict_passed_iff {expected : List Char} {answer : Except Stop Invocation} :
    verdict f expected answer = .ok .passed ↔
      ∃ inv, answer = .ok inv ∧ inv.status = .code 0 ∧
        Text.trim inv.stdout = Text.trim expected := by
  cases answer with
  | error stop => simp [verdict]
  | ok inv =>
    simp only [Except.ok.injEq, exists_eq_left', ← ExitStatus.success_iff]
    cases hsuccess : inv.status.success with
    | false => simp [verdict, hsuccess]
    | true =>
      by_cases same : Text.trim inv.stdout = Text.trim expected <;>
        simp [verdict, hsuccess, compareOutput, same]

theorem conclude_passed_iff {result : Except Stop Outcome} :
    r.conclude f result p = (.ok .passed, q) ↔ result = .ok .passed ∧ q = p.tell (r.passed f) := by
  cases result with
  | error stop => simp [Reporter.conclude]
  | ok outcome =>
    simp only [Reporter.conclude, Prod.mk.injEq, Except.ok.injEq]
    constructor
    · rintro ⟨rfl, rfl⟩
      exact ⟨rfl, rfl⟩
    · rintro ⟨rfl, rfl⟩
      exact ⟨rfl, rfl⟩

/-- A fixture that passes when its turn comes, and the state after it. -/
theorem fixture_passed_iff : r.fixture run f p = (.ok .passed, q) ↔
    ∃ text inv fs', p.files.isFile f.expectation = true ∧
      p.files.readText f.expectation = .ok text ∧
      run p.files p.invoked.length f = (.ok inv, fs') ∧ inv.status = .code 0 ∧
      Text.trim inv.stdout = Text.trim text ∧
      q = ⟨r.passed f (r.started f p.held), p.invoked ++ [f], fs'⟩ := by
  rw [Reporter.fixture]
  cases isFile : p.files.isFile f.expectation with
  | false => simp [conclude_passed_iff]
  | true =>
    cases readText : p.files.readText f.expectation with
    | error e => simp
    | ok text =>
      simp only [if_true, Reporter.judge, conclude_passed_iff, verdict_passed_iff, Progress.hand,
        Progress.tell]
      rcases hrun : run p.files p.invoked.length f with ⟨result, fs'⟩
      simp only [Prod.mk.injEq]
      constructor
      · rintro ⟨⟨inv, hresult, status, same⟩, rfl⟩
        exact ⟨text, inv, fs', trivial, rfl, ⟨hresult, rfl⟩, status, same, rfl⟩
      · rintro ⟨_, inv, _, -, ⟨⟩, ⟨hresult, rfl⟩, status, same, rfl⟩
        exact ⟨⟨inv, hresult, status, same⟩, rfl⟩

theorem numFailed_record_eq_zero_iff (s : Summary) (f : Fixture) (o : Outcome) :
    (s.record (.of f o)).numFailed = 0 ↔ s.numFailed = 0 ∧ o = .passed := by
  cases o <;> simp [Summary.record, FixtureReport.of, Outcome.isPassed]

/-- A run ends without a failure if there was none before and all its fixtures pass. -/
theorem remaining_passed_iff {s s' : Summary} {found : List Fixture} {files : FileSystem} :
    ((∃ q, r.remaining run s found p = (.ok s', q) ∧ q.files = files) ∧ s'.numFailed = 0) ↔
      s.numFailed = 0 ∧ Passes run p.invoked.length p.files found files ∧
        s' = Run.afterRounds s (found.map (·, .passed)) := by
  induction found generalizing s p with
  | nil =>
    simp only [Reporter.remaining, Prod.mk.injEq, Except.ok.injEq, List.map_nil,
      Run.afterRounds_nil]
    constructor
    · rintro ⟨⟨_, ⟨rfl, rfl⟩, rfl⟩, hfailed⟩
      exact ⟨hfailed, .nil, rfl⟩
    · rintro ⟨hfailed, ⟨⟩, rfl⟩
      exact ⟨⟨_, ⟨rfl, rfl⟩, rfl⟩, hfailed⟩
  | cons f rest ih =>
    rw [Reporter.remaining, List.map_cons, Run.afterRounds_cons]
    constructor
    · rintro ⟨⟨q, hrun, hfiles⟩, hfailed⟩
      split at hrun
      · simp at hrun
      · rename_i o next hfirst
        obtain ⟨hrecord, later, hs'⟩ := ih.1 ⟨⟨q, hrun, hfiles⟩, hfailed⟩
        obtain ⟨hzero, rfl⟩ := (numFailed_record_eq_zero_iff s f o).1 hrecord
        obtain ⟨text, inv, fs', isFile, readText, answers, status, same, rfl⟩ :=
          fixture_passed_iff.1 hfirst
        rw [List.length_append] at later
        exact ⟨hzero, .cons isFile readText answers status same later, hs'⟩
    · rintro ⟨hzero, passes, hs'⟩
      cases passes with
      | @cons _ _ fs' _ _ _ text inv isFile readText answers status same later =>
        have hfirst := fixture_passed_iff (r := r).2
          ⟨text, inv, fs', isFile, readText, answers, status, same, rfl⟩
        rw [hfirst]
        refine ih.2 ⟨(numFailed_record_eq_zero_iff s f .passed).2 ⟨hzero, rfl⟩, ?_, hs'⟩
        rwa [List.length_append]

/-- The summary of fixtures that all passed. -/
def Run.allPassed (found : List Fixture) : Summary :=
  ⟨found.length, 0, found.map fun f => .of f .passed⟩

theorem Run.afterRounds_passed (found : List Fixture) :
    afterRounds .empty (found.map (·, .passed)) = allPassed found := by
  simp [afterRounds, allPassed, Summary.empty, Round.report, Outcome.isPassed, Function.comp_def]

/-- The fixtures of a directory are run without a failure if all of them pass. -/
theorem fixtures_passed_iff {sources : Path} {filter : Filter} {s : Summary}
    {files : FileSystem} :
    ((∃ q, r.fixtures run sources filter p = (.ok s, q) ∧ q.files = files) ∧ s.exitCode = 0) ↔
      ∃ found, Discovery.discover p.files sources filter = .ok found ∧
        Passes run p.invoked.length p.files found files ∧ s = Run.allPassed found := by
  rw [Reporter.fixtures, Run.exitCode_eq_zero_iff]
  cases Discovery.discover p.files sources filter with
  | error e => simp
  | ok found =>
    simp only [remaining_passed_iff, Run.afterRounds_passed, Except.ok.injEq, exists_eq_left']
    exact and_iff_right rfl

/-! ### What a run does not survive -/

theorem conclude_stop {result : Except Stop Outcome} {stop : Stop}
    (h : (r.conclude f result p).1 = .error stop) : result = .error stop := by
  cases result with
  | error cause => exact h
  | ok o => simp [Reporter.conclude] at h

/-- A fixture crashes or hangs only by the interpreter. -/
theorem fixture_stop_cause {stop : Stop} (h : (r.fixture run f p).1 = .error stop)
    (noFailure : ∀ cause, stop ≠ .failure cause) : ∃ fs turn, (run fs turn f).1 = .error stop := by
  rw [Reporter.fixture] at h
  split at h
  · split at h
    · exact absurd (Except.error.inj h).symm (noFailure _)
    · have hverdict := conclude_stop h
      refine ⟨p.files, p.invoked.length, ?_⟩
      cases hanswer : ((p.tell (r.started f)).hand run f).1 with
      | error cause =>
        rw [hanswer] at hverdict
        exact hanswer.trans (congrArg _ (Except.error.inj hverdict))
      | ok inv =>
        rw [hanswer, verdict] at hverdict
        split at hverdict
        · split at hverdict <;> simp at hverdict
        · exact absurd (Except.error.inj hverdict).symm (noFailure _)
  · exact absurd (conclude_stop h) (by simp)

/-- A run of fixtures crashes or hangs only by the interpreter. -/
theorem remaining_stop_cause {s : Summary} {found : List Fixture} {stop : Stop}
    (h : (r.remaining run s found p).1 = .error stop) (noFailure : ∀ cause, stop ≠ .failure cause) :
    ∃ fs turn f, (run fs turn f).1 = .error stop := by
  induction found generalizing s p with
  | nil => simp [Reporter.remaining] at h
  | cons f rest ih =>
    rw [Reporter.remaining] at h
    split at h
    · rename_i hfirst
      obtain rfl := Except.error.inj h
      obtain ⟨fs, turn, hrun⟩ := fixture_stop_cause (congrArg Prod.fst hfirst) noFailure
      exact ⟨fs, turn, f, hrun⟩
    · exact ih h

/-- The run of a suite crashes only if its filter is valid and nested too deeply, or if the deadline
of a started program lies beyond the clock; it hangs only if a started program keeps the runner
waiting. -/
theorem suite_stop_cause {w : World} {c : Config} {stop : Stop}
    (h : (r.suite w c held).1 = .error stop) (noFailure : ∀ cause, stop ≠ .failure cause) :
    (stop = .crash .filterTooDeep ∧ ∃ pattern tokens, c.filter = some pattern ∧
      Glob.parse pattern = .ok tokens ∧ Glob.nestingLimit < Glob.nesting tokens) ∨
    ∃ occasion fs program source launched, w.launch occasion fs program source = .ok launched ∧
      ((∃ cause, stop = .crash cause) ∧ BeyondClock c.timeout launched.startedAt ∨
        stop = .hang ∧ launched.KeepsWaiting c.timeout) := by
  have hc := course_suite r w c held
  generalize r.suite w c held = done at h hc
  cases hc with
  | rejected rejects =>
    obtain rfl := Except.error.inj h
    exact .inl (plan_stop_cause rejects noFailure)
  | @stopped plan _ after plans stops =>
    obtain rfl := Except.error.inj h
    have hfound := congrArg Prod.fst stops
    rw [Reporter.fixturesOf, Reporter.fixtures] at hfound
    split at hfound
    · exact absurd (Except.error.inj hfound).symm (noFailure _)
    · obtain ⟨fs, turn, f, hrun⟩ := remaining_stop_cause hfound noFailure
      obtain ⟨launched, hlaunched, hcause⟩ := processExecutor_stop_cause hrun noFailure
      exact .inr ⟨_, _, _, _, launched, hlaunched, hcause⟩
  | unreported => exact absurd (Except.error.inj h).symm (noFailure _)
  | complete => simp at h

/-! ### Reports -/

theorem writeReport_ok_iff {fs : FileSystem} {path : Path} {report : RunReport} :
    (writeReport fs path report).1 = .ok () ↔
      ∃ files, fs.makeDirectories (path.parent?.getD ⟨[]⟩) = (.ok (), files) ∧
        (files.writeFile path (Text.Utf8.encode report.text.toList)).1 = .ok () := by
  rw [writeReport]
  rcases hmade : fs.makeDirectories (path.parent?.getD ⟨[]⟩) with ⟨_ | _, files⟩
  · simp
  · rcases hwrite : files.writeFile path (Text.Utf8.encode report.text.toList) with ⟨_ | _, written⟩
    · simp [hwrite]
    · simp [hwrite]

/-! ### Green runs -/

/-- Nothing goes wrong when a suite is run with a plan: its paths and its filter can be used, all
fixtures that it finds pass, and the report can be written if one is asked for, to the files that
the interpreter has left. -/
structure Green (w : World) (c : Config) (p : Plan) (found : List Fixture) (files : FileSystem) :
    Prop where
  checked : Checked w.files c p
  discovers : Discovery.discover w.files p.sources p.filter = .ok found
  passes : Passes (w.interpreter p.executable c.timeout) 0 w.files found files
  reports : ∀ path, c.report = some path →
    ∃ made, files.makeDirectories (path.parent?.getD ⟨[]⟩) = (.ok (), made) ∧
      (made.writeFile path (Text.Utf8.encode (RunReport.of w.now p.executable p.sources
        (Run.allPassed found)).text.toList)).1 = .ok ()

variable {w : World} {c : Config}

/-- A green run with a plan that is made is complete, and its fixtures have all passed. -/
theorem Green.suite_ok {found : List Fixture} {files : FileSystem} {plan : Plan}
    (green : Green w c plan found files) (plans : Touchstone.plan w.files c = .ok plan) :
    (r.suite w c held).1 = .ok (Run.allPassed found) := by
  obtain ⟨⟨after, runs, rfl⟩, -⟩ := fixtures_passed_iff (r := r) (p := .start held w.files).2
    ⟨found, green.discovers, green.passes, rfl⟩
  exact suite_ok_iff.2 ⟨plan, after, plans, runs, fun path hpath =>
    writeReport_ok_iff.2 (green.reports path hpath)⟩

/-- The sample suite with an interpreter, which writes `42` on every source file and leaves the
files alone. -/
def sampleWorld : World where
  files := ⟨([Text.Utf8.encode "laszlo".toList], .file [] true) :: Run.sampleFiles.nodes, []⟩
  launch _ _ _ _ := .ok (.ends ⟨.code 0, Text.Utf8.encode "42\n".toList, [], 0, []⟩)
  leave _ files _ _ := files
  setting := none
  output := []
  now := 0

/-- The first fixture of the sample suite is run, with a report. -/
def sampleConfig : Config :=
  ⟨.ofString "/laszlo", .ofString "/s", some "a*", none, some (.ofString "/out/report.json")⟩

/-- The plan of the sample suite. -/
def samplePlan : Plan := ⟨.ofString "/laszlo", .ofString "/s", Run.sampleFilter⟩

theorem parse_sampleFilter : Glob.parse "a*" = .ok [.literal 'a', .anyBytes] := by cbv

theorem plan_sample : plan sampleWorld.files sampleConfig = .ok samplePlan := by cbv

theorem passes_sample (fs : FileSystem) (isFile : fs.isFile (.ofString "/s/a_expected.txt") = true)
    (readText : fs.readText (.ofString "/s/a_expected.txt") = .ok "42".toList) :
    Passes (sampleWorld.interpreter (.ofString "/laszlo") none) 0 fs [Run.sampleFixture "a"]
      fs := by
  have answers : sampleWorld.interpreter (.ofString "/laszlo") none fs 0 (Run.sampleFixture "a") =
      (.ok ⟨.code 0, "42\n".toList, []⟩, fs) := by cbv
  exact .cons isFile readText answers rfl (by decide) .nil

/-- The sample suite is green. -/
theorem green_sample :
    Green sampleWorld sampleConfig samplePlan [Run.sampleFixture "a"] sampleWorld.files where
  checked := ⟨by cbv, by cbv, by cbv, by cbv, .glob parse_sampleFilter⟩
  discovers := by cbv
  passes := passes_sample sampleWorld.files (by cbv) (by cbv)
  reports := by
    rintro _ ⟨⟩
    have hmade : sampleWorld.files.makeDirectories (.ofString "/out") =
        (.ok (), sampleWorld.files.put [Text.Utf8.encode "out".toList] .directory) := by cbv
    have hwrite : ∀ content, ((sampleWorld.files.put [Text.Utf8.encode "out".toList]
        .directory).writeFile (.ofString "/out/report.json") content).1 = .ok () := by
      intro content
      cbv
    exact ⟨_, hmade, hwrite _⟩

end Touchstone
