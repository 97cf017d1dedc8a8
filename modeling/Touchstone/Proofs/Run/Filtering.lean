import Touchstone.Proofs.Discovery.Listing
import Touchstone.Proofs.Run.Reports

/-!
# Running a part of a directory

A filter takes fixtures out of the list and leaves the others in their order.  What a fixture leaves
does not depend on the fixtures around it, so a run of the selected fixtures ends well if none of
them ends it, and its reports are those that a run of all fixtures makes on them.

## Main results

* `Touchstone.Discovery.discover_filter` : a filter selects from the list of all fixtures.
* `Touchstone.Run.fixtures_ok_iff` : a run ends well if none of its fixtures ends it.
* `Touchstone.Run.fixtures_filter` : a filter selects from the reports of a run.
-/

namespace Touchstone

namespace Discovery

variable (fs : FileSystem) (sources : Path) (filter : Filter) (names : List Name)

theorem fixture?_filter (name : Name) : fixture? fs sources filter name =
    (fixture? fs sources .all name).filter fun f => filter.admits f.fileName := by
  refine Option.ext fun f => ?_
  rw [Option.filter_eq_some_iff, fixture?_eq_some_iff, fixture?_eq_some_iff]
  constructor
  · rintro ⟨he, hof⟩
    have hname := (Fixture.path_and_fileName_of_named hof).2
    exact ⟨⟨⟨he.canonical, he.isFile, he.extension, rfl⟩, hof⟩, hname.symm ▸ he.admits⟩
  · rintro ⟨⟨he, hof⟩, hadmits⟩
    have hname := (Fixture.path_and_fileName_of_named hof).2
    exact ⟨⟨he.canonical, he.isFile, he.extension, hname ▸ hadmits⟩, hof⟩

theorem among_filter : among fs sources filter names =
    (among fs sources .all names).filter fun f => filter.admits f.fileName := by
  have hselect : names.filterMap (fixture? fs sources filter) =
      (names.filterMap (fixture? fs sources .all)).filter fun f => filter.admits f.fileName := by
    rw [List.filter_filterMap]
    exact List.filterMap_congr fun name _ => fixture?_filter fs sources filter name
  refine (eq_among (pairwise_before_among.filter _) ?_).symm
  rw [hselect]
  exact (List.mergeSort_perm _ _).filter _

/-- A filter selects from the list of all fixtures. -/
theorem discover_filter : discover fs sources filter =
    (discover fs sources .all).map fun found => found.filter fun f => filter.admits f.fileName := by
  simp only [discover]
  cases fs.readDirectory sources with
  | error e => rfl
  | ok names => exact congrArg Except.ok (among_filter fs sources filter names)

end Discovery

namespace Run

variable {fs : FileSystem} {exec : Executor} {sources : Path} {filter : Filter}

/-- The run of fixtures that leave outcomes. -/
theorem fixtures_of_rounds {rounds : List Round}
    (found : Discovery.discover fs sources filter = .ok (rounds.map Prod.fst))
    (outcomes : ∀ r ∈ rounds, HasOutcome fs exec r.1 r.2) :
    (fixtures fs exec sources filter).result = .ok (afterRounds .empty rounds) := by
  rw [fixtures_of_discover found, remaining_finished outcomes]

/-- Once its fixtures are found, a run ends well exactly if none of them ends it. -/
theorem fixtures_ok_iff {found : List Fixture}
    (hfound : Discovery.discover fs sources filter = .ok found) :
    (∃ s, (fixtures fs exec sources filter).result = .ok s) ↔ ∀ f ∈ found, ¬ Aborts fs exec f := by
  constructor
  · rintro ⟨s, hs⟩ f hf haborts
    obtain ⟨rounds, hrounds, outcomes, -⟩ := rounds_of_finished hs
    obtain rfl := Except.ok.inj (hfound.symm.trans hrounds)
    obtain ⟨r, hr, rfl⟩ := List.mem_map.1 hf
    obtain ⟨stop, hstop⟩ := aborts_iff.1 haborts
    exact (outcomes r hr).not_stopsWith stop hstop
  · intro h
    obtain ⟨rounds, rfl, outcomes⟩ := exists_outcomes h
    exact ⟨_, fixtures_of_rounds hfound outcomes⟩

theorem numFailed_afterRounds (rounds : List Round) :
    (afterRounds .empty rounds).numFailed = rounds.countP (!·.2.isPassed) := by
  simp [afterRounds, Summary.empty]

theorem reports_afterRounds (rounds : List Round) :
    (afterRounds .empty rounds).reports = rounds.map fun r => .of r.1 r.2 := by
  simp only [afterRounds, Summary.empty, List.nil_append]
  rfl

/-- A filter selects from the list of all fixtures.  The run of the selected ones ends well exactly
if none of them ends it, whatever the others do.  If the run of all fixtures ends well, so does that
of the selected ones, with the reports that the former makes on them: no more of them are failures,
and none if there were none. -/
theorem fixtures_filter (fs : FileSystem) (exec : Executor) (sources : Path) (filter : Filter) :
    Discovery.discover fs sources filter = (Discovery.discover fs sources .all).map
      (fun found => found.filter fun f => filter.admits f.fileName) ∧
    (∀ found, Discovery.discover fs sources .all = .ok found →
      ((∃ s, (fixtures fs exec sources filter).result = .ok s) ↔
        ∀ f ∈ found, filter.admits f.fileName = true → ¬ Aborts fs exec f)) ∧
    ∀ s, (fixtures fs exec sources .all).result = .ok s →
      ∃ (rounds : List Round) (s' : Summary),
        Discovery.discover fs sources .all = .ok (rounds.map Prod.fst) ∧
        s.reports = rounds.map (fun r => .of r.1 r.2) ∧
        (fixtures fs exec sources filter).result = .ok s' ∧
        s'.reports =
          (rounds.filter fun r => filter.admits r.1.fileName).map (fun r => .of r.1 r.2) ∧
        s'.numFailed ≤ s.numFailed ∧ (s.exitCode = 0 → s'.exitCode = 0) := by
  have hdiscover := Discovery.discover_filter fs sources filter
  refine ⟨hdiscover, ?_, ?_⟩
  · intro found hfound
    rw [hfound] at hdiscover
    rw [fixtures_ok_iff hdiscover]
    simp only [List.mem_filter, and_imp]
  · intro s hs
    obtain ⟨rounds, hfound, outcomes, rfl⟩ := rounds_of_finished hs
    have hselected : Discovery.discover fs sources filter =
        .ok ((rounds.filter fun r => filter.admits r.1.fileName).map Prod.fst) := by
      rw [hdiscover, hfound]
      exact congrArg Except.ok List.filter_map
    have houtcomes : ∀ r ∈ rounds.filter fun r => filter.admits r.1.fileName,
        HasOutcome fs exec r.1 r.2 := fun r hr => outcomes r (List.mem_of_mem_filter hr)
    have hfailed :
        (afterRounds .empty (rounds.filter fun r => filter.admits r.1.fileName)).numFailed ≤
          (afterRounds .empty rounds).numFailed := by
      rw [numFailed_afterRounds, numFailed_afterRounds]
      exact List.filter_sublist.countP_le
    refine ⟨rounds, _, hfound, reports_afterRounds rounds, fixtures_of_rounds hselected houtcomes,
      reports_afterRounds _, hfailed, ?_⟩
    rw [exitCode_eq_zero_iff, exitCode_eq_zero_iff]
    omega

/-- The filter `a*`. -/
def sampleFilter : Filter := .glob [.literal 'a', .anyBytes]

/-- The sample suite stops at its third fixture when the interpreter exits with code two there, but
its fixtures whose names begin with `a` can be run. -/
theorem fixtures_filter_sample :
    (¬ ∃ s, (fixtures sampleFiles (sampleExecutor (.code 2)) sampleSources .all).result = .ok s) ∧
      ∃ s, (fixtures sampleFiles (sampleExecutor (.code 2)) sampleSources sampleFilter).result =
        .ok s := by
  have haborts : Aborts sampleFiles (sampleExecutor (.code 2)) (sampleFixture "c") :=
    ⟨by cbv, .inr (.inr ⟨_, rfl, by decide⟩)⟩
  constructor
  · rw [fixtures_ok_iff discover_sample]
    exact fun h => h (sampleFixture "c") (by simp) haborts
  · refine ((fixtures_filter _ _ _ _).2.1 _ discover_sample).2 fun f hf hadmits => ?_
    simp only [List.mem_cons, List.not_mem_nil, or_false] at hf
    rcases hf with rfl | rfl | rfl | rfl
    · rw [aborts_iff, not_exists]
      exact (sample_passed _).not_stopsWith
    all_goals exact absurd hadmits (ne_true_of_eq_false (by cbv))

end Run

end Touchstone
