import Touchstone.Proofs.Run.Course

/-!
# The reports of a run

A finished run reports on every fixture that was found, in the order in which they were found, and
each report tells the outcome that the files and the interpreter call for.  The counters of the
summary are counts of the reports, and its exit code is zero exactly when all fixtures passed.

## Main definitions

* `Touchstone.Run.Deserves` : when a fixture has each of the three outcomes.

## Main results

* `Touchstone.Run.reports_of_finished` : the summary of a finished run.
-/

namespace Touchstone.Run

/-- A fixture deserves an outcome: its expectation is missing exactly if it is no file, it passed
exactly if the trimmed output is the trimmed expectation, and otherwise the two differ by the
diff. -/
structure Deserves (fs : FileSystem) (exec : Executor) (f : Fixture) (o : Outcome) : Prop where
  missing : o = .missingExpectation ↔ fs.isFile f.expectation = false
  passed : o = .passed ↔ ∃ text inv, Answers fs exec f text inv ∧
    Text.trim inv.stdout = Text.trim text
  mismatch : ∀ diff, o = .mismatch diff ↔ ∃ text inv, Answers fs exec f text inv ∧
    Text.trim inv.stdout ≠ Text.trim text ∧
    diff = Diff.unified (Text.trim inv.stdout) (Text.trim text)

variable {fs : FileSystem} {exec : Executor}

/-- The outcome that a fixture leaves is the one that it deserves. -/
theorem HasOutcome.deserves {f : Fixture} {o : Outcome} (h : HasOutcome fs exec f o) :
    Deserves fs exec f o where
  missing := by
    constructor
    · rintro rfl
      cases h with
      | missing noFile => exact noFile
    · exact fun noFile => h.unique (.missing noFile)
  passed := by
    constructor
    · rintro rfl
      cases h with
      | passed h same => exact ⟨_, _, h, same⟩
    · rintro ⟨text, inv, ha, same⟩
      exact h.unique (.passed ha same)
  mismatch diff := by
    constructor
    · rintro rfl
      cases h with
      | mismatch h differs => exact ⟨_, _, h, differs, rfl⟩
    · rintro ⟨text, inv, ha, differs, rfl⟩
      exact h.unique (.mismatch ha differs)

/-! ### Counters -/

theorem isPassed_iff (o : Outcome) : o.isPassed = true ↔ o = .passed := by
  cases o <;> simp [Outcome.isPassed]

/-- Each report's flag agrees with its outcome, and the failed reports are counted. -/
theorem countP_report (rounds : List Round) :
    rounds.countP (!·.2.isPassed) =
      (rounds.map Round.report).countP fun r => r.outcome ≠ .passed := by
  rw [List.countP_map]
  refine List.countP_congr fun r _ => ?_
  simp [Round.report, FixtureReport.of, ← isPassed_iff]

theorem exitCode_eq_zero_iff (s : Summary) : s.exitCode = 0 ↔ s.numFailed = 0 := by
  simp [Summary.exitCode, Summary.passed]

/-- The rounds of a finished run: they run over all fixtures that were found. -/
theorem rounds_of_finished {sources : Path} {filter : Filter} {s : Summary}
    (h : (fixtures fs exec sources filter).result = .ok s) :
    ∃ rounds : List Round, Discovery.discover fs sources filter = .ok (rounds.map Prod.fst) ∧
      (∀ r ∈ rounds, HasOutcome fs exec r.1 r.2) ∧ s = afterRounds .empty rounds := by
  rw [fixtures_eq] at h
  cases hd : Discovery.discover fs sources filter with
  | error e => simp [hd] at h
  | ok found =>
    simp only [hd] at h
    have hc := course_remaining fs exec .empty found
    generalize remaining fs exec .empty found = run at h hc
    cases hc with
    | finished outcomes all =>
      subst all
      exact ⟨_, rfl, outcomes, (Except.ok.inj h).symm⟩
    | stopped => simp at h

/-- The summary of a finished run has one report for each fixture that was found, in the same order,
each with the outcome that its fixture deserves.  Its counters count the reports, and its exit code
is zero exactly if every outcome is a pass. -/
theorem reports_of_finished (fs : FileSystem) (exec : Executor) (sources : Path) (filter : Filter)
    (s : Summary) (h : (fixtures fs exec sources filter).result = .ok s) :
    ∃ rounds : List Round, Discovery.discover fs sources filter = .ok (rounds.map Prod.fst) ∧
      s.reports = rounds.map (fun r => .of r.1 r.2) ∧
      (∀ r ∈ rounds, Deserves fs exec r.1 r.2) ∧
      s.numRun = s.reports.length ∧
      s.numFailed = s.reports.countP (fun r => r.outcome ≠ .passed) ∧
      (∀ r ∈ s.reports, (r.passed = true ↔ r.outcome = .passed)) ∧
      (s.exitCode = 0 ↔ ∀ r ∈ s.reports, r.outcome = .passed) := by
  obtain ⟨rounds, hfound, outcomes, rfl⟩ := rounds_of_finished h
  have hreports : (afterRounds .empty rounds).reports = rounds.map Round.report := by
    simp [afterRounds, Summary.empty]
  have hfailed : (afterRounds .empty rounds).numFailed =
      (rounds.map Round.report).countP fun r => r.outcome ≠ .passed := by
    simp only [afterRounds, Summary.empty, Nat.zero_add, countP_report]
  refine ⟨rounds, hfound, hreports, fun r hr => (outcomes r hr).deserves, ?_, ?_, ?_, ?_⟩
  · simp [afterRounds, Summary.empty]
  · rw [hfailed, hreports]
  · intro r hr
    rw [hreports] at hr
    obtain ⟨q, -, rfl⟩ := List.mem_map.1 hr
    exact isPassed_iff q.2
  · rw [exitCode_eq_zero_iff, hfailed, hreports, List.countP_eq_zero]
    simp

/-- The rounds of the sample suite when the interpreter exits with code zero. -/
def sampleRounds : List Round :=
  [(sampleFixture "a", .passed), (sampleFixture "b", .missingExpectation),
    (sampleFixture "c", .mismatch (Diff.unified "world".toList "hello".toList)),
    (sampleFixture "d", .passed)]

theorem sampleRounds_outcomes :
    ∀ r ∈ sampleRounds, HasOutcome sampleFiles (sampleExecutor (.code 0)) r.1 r.2 := by
  have hc : Answers sampleFiles (sampleExecutor (.code 0)) (sampleFixture "c") "hello".toList
      ⟨.code 0, "world".toList, []⟩ := ⟨by cbv, by cbv, by cbv, rfl⟩
  have hd : Answers sampleFiles (sampleExecutor (.code 0)) (sampleFixture "d") "world".toList
      ⟨.code 0, "world".toList, []⟩ := ⟨by cbv, by cbv, by cbv, rfl⟩
  have hmismatch := HasOutcome.mismatch hc (by decide)
  rw [show Text.trim "world".toList = "world".toList by decide,
    show Text.trim "hello".toList = "hello".toList by decide] at hmismatch
  simpa [sampleRounds] using ⟨sample_passed _, sample_missing _, hmismatch, .passed hd rfl⟩

/-- The sample suite has four reports, of which two are failures, so its exit code is not zero. -/
theorem reports_of_sample :
    ∃ s, (fixtures sampleFiles (sampleExecutor (.code 0)) sampleSources .all).result = .ok s ∧
      s.numRun = 4 ∧ s.numFailed = 2 ∧ s.numRun = s.reports.length ∧
      ¬ ∀ r ∈ s.reports, r.outcome = .passed := by
  have hrun : (fixtures sampleFiles (sampleExecutor (.code 0)) sampleSources .all).result =
      .ok (afterRounds .empty sampleRounds) := by
    rw [fixtures_of_discover discover_sample]
    exact congrArg Run.result (remaining_finished sampleRounds_outcomes .empty)
  obtain ⟨-, -, -, -, hnum, -, -, hexit⟩ := reports_of_finished _ _ _ _ _ hrun
  exact ⟨_, hrun, rfl, rfl, hnum, fun hall => absurd (hexit.2 hall) (by decide)⟩

end Touchstone.Run
