import Touchstone.Proofs.Timeout.Waiting
import Touchstone.Timeout

/-!
# Deadlines

A time limit is read if its seconds fit into 64 bits without a sign, and the clock counts seconds in
64 bits with a sign.  The two ranges differ: a limit can be read and still lead to a deadline that
the clock cannot reach, on which the runner crashes.  With every limit that the clock can reach, the
interpreter either gives a result or fails with exit code one, if its outputs are closed.

## Main definitions

* `Touchstone.EndsProperly` : the runner survives running the interpreter.

## Main results

* `Touchstone.Timeout.nanoseconds_le_of_parse` : the greatest time limit that is read.
* `Touchstone.Timeout.endsProperly_iff` : the time limits that the runner survives.
-/

namespace Touchstone

/-- The interpreter gave a result, or it failed with exit code one. -/
def EndsProperly (result : Except Stop Invocation) : Prop :=
  (∃ inv, result = .ok inv) ∨
    ∃ cause, result = .error (.failure cause) ∧ cause.diagnostic.exitCode = 1

theorem not_endsProperly_crash (cause : Crash) : ¬EndsProperly (.error (.crash cause)) := by
  simp [EndsProperly]

theorem not_endsProperly_hang : ¬EndsProperly (.error .hang) := by
  simp [EndsProperly]

theorem endsProperly_failure (cause : Failure) : EndsProperly (.error (.failure cause)) :=
  .inr ⟨cause, rfl, Diagnostic.exitCode_eq_one _⟩

/-- Nothing but a crash or a hang keeps the runner from ending properly. -/
theorem endsProperly_iff_ne {result : Except Stop Invocation} : EndsProperly result ↔
    (∀ cause, result ≠ .error (.crash cause)) ∧ result ≠ .error .hang := by
  rcases result with (cause | cause | _) | inv
  · simp [endsProperly_failure]
  · simp [not_endsProperly_crash]
  · simp [not_endsProperly_hang]
  · simp [EndsProperly]

/-! ### Time limits -/

/-- A quotient below a whole number is not rounded beyond it. -/
theorem Number.roundQuotient_le {num den bound : Nat} (h : num < bound * den) :
    Number.roundQuotient num den ≤ bound := by
  have hquotient : num / den < bound := Nat.div_lt_of_lt_mul (Nat.mul_comm bound den ▸ h)
  rw [Number.roundQuotient]
  split <;> omega

theorem Number.roundQuotient_mul_le {num den bound scale : Nat} (h : num < bound * den)
    (hscale : 0 < scale) : Number.roundQuotient (num * scale) den ≤ bound * scale := by
  refine Number.roundQuotient_le ?_
  rw [Nat.mul_right_comm]
  exact Nat.mul_lt_mul_of_pos_right h hscale

theorem Duration.nanoseconds_le_of_ofUnits? {units : Nat} {limit : Duration}
    (h : Duration.ofUnits? units = some limit) :
    limit.nanoseconds ≤ 2 ^ 64 * Duration.perSecond := by
  rw [Duration.ofUnits?] at h
  -- the number of units in one is too great to be computed with
  generalize Number.Binary64.unit = unit at h
  split at h
  · rename_i hunits
    obtain rfl := Option.some.inj h
    exact Number.roundQuotient_mul_le hunits (by decide)
  · simp at h

namespace Timeout

/-- A time limit that is read has at most `2 ^ 64` seconds. -/
theorem nanoseconds_le_of_parse {text : String} {limit : Duration} (h : parse text = .ok limit) :
    limit.nanoseconds ≤ 2 ^ 64 * Duration.perSecond := by
  rw [parse] at h
  split at h
  · simp at h
  · simp at h
  · split at h
    · simp at h
    · split at h
      · simp at h
      · split at h
        · simp at h
        · rename_i hunits
          obtain rfl := Except.ok.inj h
          exact Duration.nanoseconds_le_of_ofUnits? hunits

/-! ### Running with a time limit -/

theorem not_beyondClock_iff {startedAt : Instant} {limit : Duration} :
    ¬BeyondClock (some limit) startedAt ↔
      startedAt + limit.nanoseconds < clockLimit * Duration.perSecond := by
  simp only [BeyondClock, Option.some.injEq, exists_eq_left', deadline?]
  split <;> simp_all

/-- A program that is run under a time limit ends properly if the clock can reach its deadline and
it does not keep the runner waiting. -/
theorem endsProperly_launchedResult_iff (f : Fixture) (limit : Duration) (launched : Launched) :
    EndsProperly (launchedResult f (some limit) launched) ↔
      launched.startedAt + limit.nanoseconds < clockLimit * Duration.perSecond ∧
        ¬launched.KeepsWaiting (some limit) := by
  have hcrash : (∀ cause, launchedResult f (some limit) launched ≠ .error (.crash cause)) ↔
      ¬BeyondClock (some limit) launched.startedAt := by
    simp only [ne_eq, launchedResult_crash_iff, not_and]
    exact ⟨fun h beyond => h .deadlineBeyondClock beyond rfl, fun h _ beyond => absurd beyond h⟩
  rw [endsProperly_iff_ne, hcrash, ne_eq, launchedResult_hang_iff, not_beyondClock_iff]

/-- The interpreter is run properly under a time limit that is read if, once it is started, the
clock can reach the deadline, and its outputs are closed if it ends in time.  At readings of the
clock up to `2 ^ 62` seconds the clock can reach the deadline of every limit below `2 ^ 62` seconds;
the greatest limits that are read lie beyond. -/
theorem endsProperly_iff (text : String) (limit : Duration) (accepted : parse text = .ok limit)
    (launch : Launcher) (fs : FileSystem) (program : Path) (f : Fixture)
    (clock : ∀ launched, launch fs program f.path = .ok launched →
      launched.startedAt ≤ 2 ^ 62 * Duration.perSecond) :
    limit.nanoseconds ≤ 2 ^ 64 * Duration.perSecond ∧
    (EndsProperly (processExecutor launch fs program (some limit) f) ↔
      ∀ launched, launch fs program f.path = .ok launched →
        launched.startedAt + limit.nanoseconds < clockLimit * Duration.perSecond ∧
          ¬launched.KeepsWaiting (some limit)) ∧
    (limit.nanoseconds < 2 ^ 62 * Duration.perSecond →
      (∀ child, launch fs program f.path = .ok (.heldOpen child) → ¬InTime (some limit) child) →
        EndsProperly (processExecutor launch fs program (some limit) f)) := by
  have hends : EndsProperly (processExecutor launch fs program (some limit) f) ↔
      ∀ launched, launch fs program f.path = .ok launched →
        launched.startedAt + limit.nanoseconds < clockLimit * Duration.perSecond ∧
          ¬launched.KeepsWaiting (some limit) := by
    rw [processExecutor]
    cases hlaunch : launch fs program f.path with
    | error e => simp [endsProperly_failure]
    | ok launched => simpa using endsProperly_launchedResult_iff f limit launched
  refine ⟨nanoseconds_le_of_parse accepted, hends, fun hsmall hclosed => hends.2 ?_⟩
  intro launched hlaunched
  constructor
  · calc launched.startedAt + limit.nanoseconds
        < 2 ^ 62 * Duration.perSecond + 2 ^ 62 * Duration.perSecond :=
          Nat.add_lt_add_of_le_of_lt (clock launched hlaunched) hsmall
      _ = clockLimit * Duration.perSecond := rfl
  · rintro (⟨⟨⟩⟩ | ⟨inTime⟩)
    exact hclosed _ hlaunched inTime

/-- A limit of one second can be run. -/
theorem endsProperly_one_second : parse "1" = .ok ⟨Duration.perSecond⟩ ∧
    EndsProperly (processExecutor (fun _ _ _ => .ok (.ends ⟨.code 0, [], [], 0, []⟩)) .empty ⟨[]⟩
      (some ⟨Duration.perSecond⟩) ⟨⟨[]⟩, [], ⟨[]⟩⟩) := by
  have accepted : parse "1" = .ok ⟨Duration.perSecond⟩ := by decide +kernel
  refine ⟨accepted, (endsProperly_iff "1" _ accepted _ _ _ _ ?_).2.2 (by decide) ?_⟩
  · intro launched hlaunched
    obtain rfl := Except.ok.inj hlaunched
    exact Nat.zero_le _
  · simp

/-- A limit of `10 ^ 19` seconds is read, and then every program that is started crashes the runner.
-/
theorem crashes_ten_to_nineteen : parse "1e19" = .ok ⟨Nat.pow 10 28⟩ ∧
    (∀ f launched, launchedResult f (some ⟨Nat.pow 10 28⟩) launched =
      .error (.crash .deadlineBeyondClock)) ∧
    ¬EndsProperly (processExecutor (fun _ _ _ => .ok (.ends ⟨.code 0, [], [], 0, []⟩)) .empty ⟨[]⟩
      (some ⟨Nat.pow 10 28⟩) ⟨⟨[]⟩, [], ⟨[]⟩⟩) := by
  have crashes : ∀ f launched, launchedResult f (some ⟨Nat.pow 10 28⟩) launched =
      .error (.crash .deadlineBeyondClock) := by
    intro f launched
    have hbeyond : ¬launched.startedAt + Nat.pow 10 28 < clockLimit * Duration.perSecond := by
      have hlimit : clockLimit * Duration.perSecond ≤ Nat.pow 10 28 := by decide
      exact Nat.not_lt.2 (Nat.le_add_left_of_le hlimit)
    exact launchedResult_crash_iff.2 ⟨not_not.1 (mt not_beyondClock_iff.1 hbeyond), rfl⟩
  refine ⟨by decide +kernel, crashes, ?_⟩
  simp only [processExecutor, crashes]
  exact not_endsProperly_crash _

end Timeout

end Touchstone
