import Touchstone.Proofs.Comparison.Core
import Touchstone.Proofs.Run.Course
import Touchstone.Proofs.Text.Repair
import Touchstone.Proofs.Timeout.Waiting

/-!
# The bytes on which a fixture passes

The output of the interpreter is bytes, and the expectation is a text.  The output is read with the
replacement character in place of damage, so a fixture passes exactly if the repaired output is the
UTF-8 form of a text with the core of the expectation.  An expectation whose core has no replacement
character is met by valid output alone, and then the bytes without the white space at their ends are
those of the expectation.

## Main results

* `Touchstone.Run.passes_iff` : the outputs on which a fixture passes.
* `Touchstone.Run.passes_damaged` : a fixture that passes on damaged output.
-/

namespace Touchstone

open Text (isBlank trim)
open Text.Utf8 (Valid decodeLossy encode repaired)

/-! ### Damage in the core of an output -/

theorem mem_trim {text : List Char} {c : Char} (mem : c ∈ text) (hc : isBlank c = false) :
    c ∈ trim text := by
  obtain ⟨pre, post, hpre, hpost, heq⟩ := (Text.isCore_trim text).between
  have hnot : ∀ {t}, Text.Blank t → c ∉ t := fun h mem => by simp [h c mem] at hc
  rw [heq, List.mem_append, List.mem_append] at mem
  rcases mem with (mem | mem) | mem
  · exact absurd mem (hnot hpre)
  · exact mem
  · exact absurd mem (hnot hpost)

/-- Output is valid if it is read with a core that has no replacement character. -/
theorem valid_of_trim {bytes : List UInt8} (h : '\uFFFD' ∉ trim (decodeLossy bytes)) :
    Valid bytes := by
  by_contra damaged
  exact h (mem_trim (Text.Utf8.replacement_mem_of_not_valid damaged) (by decide))

namespace Run

variable {launch : Launcher} {fs : FileSystem} {program : Path} {limit : Option Duration}
  {f : Fixture} {child : Child}

/-! ### Passing -/

/-- A fixture passes if the output as it is read has the core of the expectation. -/
theorem passed_iff_trim (started : launch fs program f.path = .ok (.ends child))
    (exits : child.status = .code 0) (inTime : InTime limit child) (expected : List Char) :
    (judge (processExecutor launch fs program limit) f expected).result = .ok .passed ↔
      trim (decodeLossy child.stdout) = trim expected := by
  have hanswer : processExecutor launch fs program limit f = .ok child.invocation := by
    simp only [processExecutor, started, launchedResult, childResult_of_inTime inTime f]
  have hsuccess : child.invocation.status.success = true := (ExitStatus.success_iff _).2 exits
  by_cases same : trim (decodeLossy child.stdout) = trim expected
  · have hsame : compareOutput child.invocation.stdout expected = .same := if_pos same
    simp [judge_eq, verdict, hanswer, hsuccess, hsame, same]
  · have hdiffers : compareOutput child.invocation.stdout expected =
        .differs (Diff.unified (trim (decodeLossy child.stdout)) (trim expected)) := if_neg same
    simp [judge_eq, verdict, hanswer, hsuccess, hdiffers, same]

/-- A fixture whose interpreter ends in time with code zero passes exactly if the repaired output is
the UTF-8 form of a text with the core of the expectation.  Valid output is repaired already, and an
expectation whose core has no replacement character is met by valid output alone. -/
theorem passes_iff (started : launch fs program f.path = .ok (.ends child))
    (exits : child.status = .code 0) (inTime : InTime limit child) (expected : List Char) :
    ((judge (processExecutor launch fs program limit) f expected).result = .ok .passed ↔
      ∃ text, repaired child.stdout = encode text ∧
        encode (trim text) = encode (trim expected)) ∧
    (Valid child.stdout → repaired child.stdout = child.stdout) ∧
    ('\uFFFD' ∉ trim expected →
      ((judge (processExecutor launch fs program limit) f expected).result = .ok .passed ↔
        ∃ text, child.stdout = encode text ∧ encode (trim text) = encode (trim expected))) := by
  have hpassed := passed_iff_trim started exits inTime expected
  have hrepaired : (∃ text, repaired child.stdout = encode text ∧
      encode (trim text) = encode (trim expected)) ↔
      trim (decodeLossy child.stdout) = trim expected := by
    rw [Text.Utf8.repaired_eq_encode]
    constructor
    · rintro ⟨text, hbytes, hcore⟩
      rw [Text.Utf8.encode_injective hbytes, Text.Utf8.encode_injective hcore]
    · intro hcore
      exact ⟨_, rfl, congrArg encode hcore⟩
  refine ⟨hpassed.trans hrepaired.symm, Valid.repaired_eq, fun hclean => ?_⟩
  rw [hpassed.trans hrepaired.symm]
  constructor
  · intro hexists
    have hvalid : Valid child.stdout := valid_of_trim (by rwa [hrepaired.1 hexists])
    rwa [hvalid.repaired_eq] at hexists
  · rintro ⟨text, hbytes, hcore⟩
    have hvalid : Valid child.stdout := ⟨text, hbytes⟩
    exact ⟨text, by rw [hvalid.repaired_eq, hbytes], hcore⟩

/-- A program that writes some bytes and exits with code zero. -/
def sampleLauncher (stdout : List UInt8) : Launcher := fun _ _ _ =>
  .ok (.ends ⟨.code 0, stdout, [], 0, [1]⟩)

/-- With a time limit of one second, `42` with a line feed passes. -/
theorem passes_valid :
    InTime (some ⟨Duration.perSecond⟩) ⟨.code 0, encode ['4', '2', '\n'], [], 0, [1]⟩ ∧
    (judge (processExecutor (sampleLauncher (encode ['4', '2', '\n'])) .empty ⟨[]⟩
      (some ⟨Duration.perSecond⟩)) (sampleFixture "a") ['4', '2']).result = .ok .passed := by
  have inTime :
      InTime (some ⟨Duration.perSecond⟩) ⟨.code 0, encode ['4', '2', '\n'], [], 0, [1]⟩ := by
    rintro l ⟨⟩
    exact ⟨_, rfl, by decide⟩
  refine ⟨inTime, ((passes_iff rfl rfl inTime ['4', '2']).2.2 (by decide)).2 ?_⟩
  exact ⟨['4', '2', '\n'], rfl, by decide⟩

/-- A byte that begins no character passes for the replacement character. -/
theorem passes_damaged :
    (judge (processExecutor (sampleLauncher [0xFF]) .empty ⟨[]⟩ none) (sampleFixture "a")
      ['\uFFFD']).result = .ok .passed ∧
    ¬ ∃ text, [0xFF] = encode text ∧ encode (trim text) = encode (trim ['\uFFFD']) := by
  have hpieces : Text.Utf8.pieces [0xFF] = [.damaged [0xFF]] := by
    simp [Text.Utf8.pieces, Text.Utf8.piecesOnto, Text.Utf8.piece, Text.Utf8.lead?]
  have hread : decodeLossy [0xFF] = ['\uFFFD'] := by
    rw [decodeLossy, hpieces]
    rfl
  constructor
  · exact (passed_iff_trim rfl rfl (fun l h => by simp at h) _).2 (congrArg trim hread)
  · rintro ⟨text, hbytes, -⟩
    refine Text.Utf8.valid_iff.1 ⟨text, hbytes⟩ [0xFF] ?_
    simp [hpieces]

end Run

end Touchstone
