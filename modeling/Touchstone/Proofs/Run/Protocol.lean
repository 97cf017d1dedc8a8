import Touchstone.Proofs.Run.Reports

/-!
# What a run tells

The events of a run are one block for each fixture up to the one that ends it, and a tail that shows
how it ended.  A block tells of a missing expectation, or of a start and the verdict after it.  A
finished run ends with its counters; a run that is stopped by the interpreter ends with the start of
the fixture that stopped it; any other run ends with its last block.

## Main definitions

* `Touchstone.Run.Protocol` : the events of a run, by the way in which it ended.

## Main results

* `Touchstone.Run.protocol_fixtures` : every run follows the protocol.
-/

namespace Touchstone.Run

/-- What a run tells, by the way in which it ended. -/
inductive Protocol (fs : FileSystem) (exec : Executor) (sources : Path) (filter : Filter)
    (run : Run Summary) : Prop
  /-- The fixtures could not be found: nothing is told. -/
  | unfound (e : Failure) (found : Discovery.discover fs sources filter = .error e)
      (result : run.result = .error (.failure e)) (events : run.events = [])
  /-- The run is finished: a block for each fixture, with the outcome that its report names, and
  then the counters of the summary.  As many events as the summary counts tell of failures. -/
  | finished (rounds : List Round) (s : Summary)
      (found : Discovery.discover fs sources filter = .ok (rounds.map Prod.fst))
      (outcomes : ∀ r ∈ rounds, Deserves fs exec r.1 r.2)
      (result : run.result = .ok s) (reports : s.reports = rounds.map fun r => .of r.1 r.2)
      (events : run.events = told rounds ++ [.finished s.numRun s.numFailed])
      (failures : (run.events.filter Event.isFailure).length = s.numFailed)
  /-- The expectation of the fixture `f` could not be read: there are the blocks before it. -/
  | unreadable (rounds : List Round) (f : Fixture) (rest : List Fixture) (e : OsError)
      (found : Discovery.discover fs sources filter = .ok (rounds.map Prod.fst ++ f :: rest))
      (outcomes : ∀ r ∈ rounds, Deserves fs exec r.1 r.2)
      (isFile : fs.isFile f.expectation = true) (unread : fs.readText f.expectation = .error e)
      (result : run.result = .error (.failure (.readExpectation f.expectation e)))
      (events : run.events = told rounds)
  /-- The interpreter could not be run on the fixture `f`, or did not succeed: there are the blocks
  before it, and its start. -/
  | unsuccessful (rounds : List Round) (f : Fixture) (rest : List Fixture) (stop : Stop)
      (found : Discovery.discover fs sources filter = .ok (rounds.map Prod.fst ++ f :: rest))
      (outcomes : ∀ r ∈ rounds, Deserves fs exec r.1 r.2) (expected : hasExpectation fs f = true)
      (answer : exec f = .error stop ∨ ∃ inv, exec f = .ok inv ∧ inv.status ≠ .code 0)
      (result : run.result = .error stop) (events : run.events = told rounds ++ [.started f.path])

variable {fs : FileSystem} {exec : Executor}

/-! ### Failures -/

/-- A block tells of one failure, unless its fixture passed. -/
theorem length_filter_block (f : Fixture) (o : Outcome) :
    ((block f o).filter Event.isFailure).length = if o.isPassed then 0 else 1 := by
  cases o <;> rfl

/-- The blocks of some rounds tell of as many failures as there are among the rounds. -/
theorem length_filter_told (rounds : List Round) :
    ((told rounds).filter Event.isFailure).length = rounds.countP (!·.2.isPassed) := by
  induction rounds with
  | nil => rfl
  | cons r rounds ih =>
    rw [told_cons, List.filter_append, List.length_append, ih, length_filter_block,
      List.countP_cons]
    cases r.2.isPassed <;> simp [Nat.add_comm]

/-! ### Endings -/

/-- The tail of a stopped run is empty if the expectation could not be read, and the start of the
last fixture otherwise. -/
theorem StopsWith.ending {f : Fixture} {stop : Stop} (h : StopsWith fs exec f stop) :
    (∃ e, fs.isFile f.expectation = true ∧ fs.readText f.expectation = .error e ∧
      stop = .failure (.readExpectation f.expectation e) ∧ lastEvents fs f = []) ∨
    hasExpectation fs f = true ∧ lastEvents fs f = [.started f.path] ∧
      (exec f = .error stop ∨ ∃ inv, exec f = .ok inv ∧ inv.status ≠ .code 0) := by
  cases h with
  | unreadable isFile unread =>
    exact .inl ⟨_, isFile, unread, rfl, by simp [lastEvents, hasExpectation, unread, Except.toBool]⟩
  | refused isFile readText answer =>
    have hexp := hasExpectation_of_readText isFile readText
    exact .inr ⟨hexp, by simp [lastEvents, hexp], .inl answer⟩
  | failed isFile readText answer status =>
    have hexp := hasExpectation_of_readText isFile readText
    exact .inr ⟨hexp, by simp [lastEvents, hexp], .inr ⟨_, answer, status⟩⟩

/-- Every run follows the protocol, whatever the files, the filter and the interpreter are. -/
theorem protocol_fixtures (fs : FileSystem) (exec : Executor) (sources : Path) (filter : Filter) :
    Protocol fs exec sources filter (fixtures fs exec sources filter) := by
  cases hd : Discovery.discover fs sources filter with
  | error e => exact .unfound e hd (by simp [fixtures_eq, hd]) (by simp [fixtures_eq, hd])
  | ok found =>
    rw [fixtures_of_discover hd]
    have hc := course_remaining fs exec .empty found
    generalize remaining fs exec .empty found = run at hc
    cases hc with
    | @finished rounds outcomes all =>
      have hout : ∀ r ∈ rounds, Deserves fs exec r.1 r.2 := fun r hr => (outcomes r hr).deserves
      refine .finished rounds _ (all ▸ hd) hout rfl ?_ rfl ?_
      · simp only [afterRounds, Summary.empty, List.nil_append]
        rfl
      · simp [List.filter_append, length_filter_told, Event.isFailure, afterRounds, Summary.empty]
    | @stopped rounds f rest stop outcomes split last =>
      have hout : ∀ r ∈ rounds, Deserves fs exec r.1 r.2 := fun r hr => (outcomes r hr).deserves
      rcases last.ending with ⟨e, isFile, unread, rfl, htail⟩ | ⟨hexp, htail, answer⟩
      · refine .unreadable rounds f rest e (split ▸ hd) hout isFile unread rfl ?_
        simp [htail]
      · refine .unsuccessful rounds f rest stop (split ▸ hd) hout hexp answer rfl ?_
        simp [htail]

end Touchstone.Run
