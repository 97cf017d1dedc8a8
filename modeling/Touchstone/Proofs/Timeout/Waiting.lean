import Mathlib
import Touchstone.Suite.Interpreter

/-!
# Waiting for a started program

A started program is waited for until it ends, or until it is late, and then until its outputs are
closed.  The wait gives a result or a failure, unless the clock cannot reach the deadline, on which
the runner crashes, or the program keeps the runner waiting for ever.  There is no time limit for
that which keeps the outputs open once the program itself has ended.

## Main definitions

* `Touchstone.InTime` : a child ends before its time limit.
* `Touchstone.Launched.KeepsWaiting` : a program keeps the runner waiting for ever.

## Main results

* `Touchstone.childResult_eq_ok_iff` : the children that give a result.
* `Touchstone.launchedResult_crash_iff`, `Touchstone.launchedResult_hang_iff` : the programs that
  the runner does not survive.
-/

namespace Touchstone

/-! ### Children -/

/-- A child ends before its time limit, if it has one: the clock can reach the deadline, and the
child is seen running only before it. -/
def InTime (limit : Option Duration) (c : Child) : Prop :=
  ∀ l, limit = some l → ∃ deadline, deadline? c.startedAt l = some deadline ∧
    ∀ now ∈ c.runningAt, now < deadline

theorem awaitUntil_exited {deadline : Instant} (status : ExitStatus) {running : List Instant}
    (h : ∀ now ∈ running, now < deadline) :
    (awaitUntil deadline status running).2 = .exited status := by
  induction running with
  | nil => rfl
  | cons now later ih =>
    obtain ⟨hnow, hlater⟩ := List.forall_mem_cons.1 h
    rw [awaitUntil, if_neg (Nat.not_le_of_lt hnow)]
    exact ih hlater

/-- A child that is not killed is seen running only before the deadline. -/
theorem forall_lt_of_awaitUntil {deadline : Instant} {status : ExitStatus} {running : List Instant}
    (h : (awaitUntil deadline status running).2 ≠ .killed) : ∀ now ∈ running, now < deadline := by
  induction running with
  | nil => simp
  | cons now later ih =>
    rw [awaitUntil] at h
    split at h
    · exact absurd rfl h
    · rename_i hnow
      exact List.forall_mem_cons.2 ⟨not_le.1 hnow, ih h⟩

/-- The run of a child that ends in time gives what the child wrote. -/
theorem childResult_of_inTime {limit : Option Duration} {c : Child} (h : InTime limit c)
    (f : Fixture) : childResult f limit c = .ok c.invocation := by
  cases limit with
  | none => rfl
  | some l =>
    obtain ⟨deadline, hdeadline, hrunning⟩ := h l rfl
    simp only [childResult, hdeadline, Child.await, awaitUntil_exited c.status hrunning]

variable {f : Fixture} {c : Child} {limit : Option Duration}

theorem childResult_eq_ok_iff {inv : Invocation} :
    childResult f limit c = .ok inv ↔ InTime limit c ∧ inv = c.invocation := by
  constructor
  · intro h
    have inTime : InTime limit c := by
      rintro l rfl
      rw [childResult] at h
      split at h
      · simp at h
      · rename_i deadline hdeadline
        have hending : (awaitUntil deadline c.status c.runningAt).2 ≠ .killed := by
          intro hkilled
          rw [Child.await, hkilled] at h
          simp at h
        exact ⟨deadline, hdeadline, forall_lt_of_awaitUntil hending⟩
    rw [childResult_of_inTime inTime] at h
    exact ⟨inTime, (Except.ok.inj h).symm⟩
  · rintro ⟨inTime, rfl⟩
    exact childResult_of_inTime inTime f

/-- The deadline of a program that was started at a moment lies beyond the clock. -/
def BeyondClock (limit : Option Duration) (startedAt : Instant) : Prop :=
  ∃ l, limit = some l ∧ deadline? startedAt l = none

/-- A child gives its result if it ends in time, crashes the runner if its deadline lies beyond the
clock, and is late otherwise. -/
theorem childResult_cases (f : Fixture) (limit : Option Duration) (c : Child) :
    (InTime limit c ∧ ¬BeyondClock limit c.startedAt ∧
      childResult f limit c = .ok c.invocation) ∨
    (¬InTime limit c ∧ BeyondClock limit c.startedAt ∧
      childResult f limit c = .error (.crash .deadlineBeyondClock)) ∨
    (¬InTime limit c ∧ ¬BeyondClock limit c.startedAt ∧
      ∃ l, childResult f limit c = .error (.failure (.timedOut f.path l))) := by
  cases limit with
  | none => exact .inl ⟨by simp [InTime], by simp [BeyondClock], rfl⟩
  | some l =>
    cases hdeadline : deadline? c.startedAt l with
    | none =>
      refine .inr (.inl ⟨by simp [InTime, hdeadline], ⟨l, rfl, hdeadline⟩, ?_⟩)
      simp only [childResult, hdeadline]
    | some deadline =>
      have reach : ¬BeyondClock (some l) c.startedAt := by simp [BeyondClock, hdeadline]
      cases hending : (c.await deadline).2 with
      | exited status =>
        have hresult : childResult f (some l) c = .ok c.invocation := by
          simp only [childResult, hdeadline, hending]
        exact .inl ⟨(childResult_eq_ok_iff.1 hresult).1, reach, hresult⟩
      | killed =>
        have hresult : childResult f (some l) c = .error (.failure (.timedOut f.path l)) := by
          simp only [childResult, hdeadline, hending]
        refine .inr (.inr ⟨fun inTime => ?_, reach, l, hresult⟩)
        simp [childResult_of_inTime inTime] at hresult

/-! ### Programs -/

/-- A started program keeps the runner waiting for ever: it runs on and there is no time limit, or
it ends in time and its outputs are kept open. -/
inductive Launched.KeepsWaiting (limit : Option Duration) : Launched → Prop
  | runsOn {startedAt : Instant} (unlimited : limit = none) : KeepsWaiting limit (.runsOn startedAt)
  | heldOpen {child : Child} (inTime : InTime limit child) : KeepsWaiting limit (.heldOpen child)

variable {launched : Launched}

theorem Launched.keepsWaiting_runsOn_iff {startedAt : Instant} :
    (runsOn startedAt).KeepsWaiting limit ↔ limit = none :=
  ⟨fun h => by cases h; assumption, .runsOn⟩

theorem Launched.keepsWaiting_heldOpen_iff : (heldOpen c).KeepsWaiting limit ↔ InTime limit c :=
  ⟨fun h => by cases h; assumption, .heldOpen⟩

/-- A started program crashes the runner if its deadline lies beyond the clock, and only then. -/
theorem launchedResult_crash_iff {cause : Crash} :
    launchedResult f limit launched = .error (.crash cause) ↔
      BeyondClock limit launched.startedAt ∧ cause = .deadlineBeyondClock := by
  cases launched with
  | runsOn startedAt =>
    cases limit with
    | none => simp [launchedResult, BeyondClock]
    | some l =>
      cases hdeadline : deadline? startedAt l <;>
        simp [launchedResult, BeyondClock, Launched.startedAt, hdeadline, eq_comm]
  | ends child | unawaited child | unread child | heldOpen child =>
    rcases childResult_cases f limit child with ⟨-, reach, h⟩ | ⟨-, beyond, h⟩ | ⟨-, reach, l, h⟩
    · simp [launchedResult, Launched.startedAt, h, reach, Except.bind]
    · simp [launchedResult, Launched.startedAt, h, beyond, Except.bind, eq_comm]
    · simp [launchedResult, Launched.startedAt, h, reach, Except.bind]

/-- The runner hangs if a started program keeps it waiting, and only then. -/
theorem launchedResult_hang_iff :
    launchedResult f limit launched = .error .hang ↔ launched.KeepsWaiting limit := by
  cases launched with
  | runsOn startedAt =>
    rw [Launched.keepsWaiting_runsOn_iff]
    cases limit with
    | none => simp [launchedResult]
    | some l => cases hdeadline : deadline? startedAt l <;> simp [launchedResult, hdeadline]
  | heldOpen child =>
    rw [Launched.keepsWaiting_heldOpen_iff]
    rcases childResult_cases f limit child with ⟨inTime, -, h⟩ | ⟨late, -, h⟩ | ⟨late, -, l, h⟩
    · simp [launchedResult, h, inTime, Except.bind]
    · simp [launchedResult, h, late, Except.bind]
    · simp [launchedResult, h, late, Except.bind]
  | ends child | unawaited child | unread child =>
    refine iff_of_false ?_ (by rintro ⟨⟩)
    rcases childResult_cases f limit child with ⟨-, -, h⟩ | ⟨-, -, h⟩ | ⟨-, -, l, h⟩ <;>
      simp [launchedResult, h, Except.bind]

/-- Running the interpreter crashes if a started program does, and hangs if one keeps the runner
waiting. -/
theorem processExecutor_stop_cause {launch : Launcher} {fs : FileSystem} {program : Path}
    {stop : Stop} (h : processExecutor launch fs program limit f = .error stop)
    (noFailure : ∀ cause, stop ≠ .failure cause) :
    ∃ launched, launch fs program f.path = .ok launched ∧
      ((∃ cause, stop = .crash cause) ∧ BeyondClock limit launched.startedAt ∨
        stop = .hang ∧ launched.KeepsWaiting limit) := by
  rw [processExecutor] at h
  split at h
  · exact absurd (Except.error.inj h).symm (noFailure _)
  · rename_i launched hlaunched
    refine ⟨launched, hlaunched, ?_⟩
    cases stop with
    | failure cause => exact absurd rfl (noFailure cause)
    | crash cause => exact .inl ⟨⟨cause, rfl⟩, (launchedResult_crash_iff.1 h).1⟩
    | hang => exact .inr ⟨rfl, launchedResult_hang_iff.1 h⟩

end Touchstone
