import Touchstone.Proofs.FileSystem.Replay
import Touchstone.Proofs.Suite.Answering
import Touchstone.Proofs.Suite.Effects

/-!
# Suites and the order of listings

The system lists the entries of a directory in an order of its own, and may do so in another order
the next time.  A run of a suite does not depend on it, if the interpreter does not: under another
listing it tells the same events, ends in the same way, and leaves the same nodes.

## Main results

* `Touchstone.discover_relisted` : the fixtures do not depend on the order of listings.
* `Touchstone.Answering.suite_relisted` : a run does not depend on it.
-/

namespace Touchstone

open FileSystem (Relisted Replays)

variable {fs fs' : FileSystem}

section Relisted

variable (h : Relisted fs fs')

include h

theorem plan_relisted (c : Config) : plan fs' c = plan fs c := by
  simp only [plan, resolveExecutable, resolveSources, h.canonical, h.isFile, h.isDirectory]

theorem discover_relisted (sources : Path) (filter : Filter) :
    Discovery.discover fs' sources filter = Discovery.discover fs sources filter := by
  cases hread : fs.readDirectory sources with
  | ok names =>
    obtain ⟨order, horder, perm⟩ := h.readDirectory hread
    rw [Discovery.discover, Discovery.discover, hread, horder]
    simp only [Discovery.among_relisted h, Discovery.among_perm perm]
  | error e =>
    have hread' : fs'.readDirectory sources = .error e := by
      rw [FileSystem.readDirectory] at hread ⊢
      rw [h.locate]
      cases hplace : fs.locate sources with
      | error e' => simpa [hplace] using hread
      | ok place =>
        simp only [hplace, h.node?] at hread ⊢
        split at hread
        · simp at hread
        · exact hread
    rw [Discovery.discover, Discovery.discover, hread, hread']

theorem Answering.executor_relisted (answer : Answering) (program : Path) :
    answer.executor fs' program = answer.executor fs program := by
  funext f
  simp only [executor, startFault?, h.target, h.isFile, h.contentOf]

theorem Answering.fixtures_relisted (answer : Answering) (p : Plan) :
    answer.fixtures fs' p = answer.fixtures fs p := by
  rw [fixtures, fixtures, Run.fixtures_eq, Run.fixtures_eq, discover_relisted h,
    executor_relisted h]
  cases Discovery.discover fs p.sources p.filter with
  | error e => rfl
  | ok found =>
    exact Run.remaining_eq_of_agrees (fun f _ => ⟨h.isFile _, h.readText _, rfl⟩) .empty

theorem writeReport_relisted (path : Path) (r : RunReport) :
    Replays (writeReport fs path r) (writeReport fs' path r) := by
  obtain ⟨result, made, made', hmake, hmake', relisted⟩ :=
    (h.makeDirectories (reportHome path)).exists_files
  rw [writeReport, writeReport, hmake, hmake']
  cases result with
  | error e => exact ⟨rfl, relisted⟩
  | ok =>
    obtain ⟨result, files, files', hwrite, hwrite', relisted⟩ :=
      (relisted.writeFile path r.content).exists_files
    dsimp only
    rw [hwrite, hwrite']
    cases result with
    | error e => exact ⟨rfl, relisted⟩
    | ok => exact ⟨rfl, relisted⟩

theorem report_relisted (now : Nat) (c : Config) (p : Plan) (s : Summary) :
    (report fs' now c p s).1 = (report fs now c p s).1 ∧
      Relisted (report fs now c p s).2 (report fs' now c p s).2 := by
  rw [report, report]
  cases c.report with
  | none => exact ⟨rfl, h⟩
  | some path =>
    obtain ⟨result, left, left', hwrite, hwrite', relisted⟩ :=
      (writeReport_relisted h path (.of now p.executable p.sources s)).exists_files
    simp only [hwrite, hwrite']
    cases result with
    | error e => exact ⟨rfl, relisted⟩
    | ok => exact ⟨rfl, relisted⟩

/-- A run does not depend on the order in which directories are listed. -/
theorem Answering.suite_relisted (answer : Answering) (now : Nat) (c : Config) :
    (answer.suite fs' now c).events = (answer.suite fs now c).events ∧
      (answer.suite fs' now c).result = (answer.suite fs now c).result ∧
      Relisted (answer.suite fs now c).files (answer.suite fs' now c).files := by
  have hplan' := plan_relisted h c
  have hfixtures (p : Plan) := fixtures_relisted h answer p
  cases hplan : plan fs c with
  | error stop =>
    rw [suite_of_rejected hplan, suite_of_rejected (hplan'.trans hplan)]
    exact ⟨rfl, rfl, h⟩
  | ok p =>
    cases runs : (answer.fixtures fs p).result with
    | error stop =>
      rw [suite_of_stopped hplan runs,
        suite_of_stopped (hplan'.trans hplan) ((congrArg _ (hfixtures p)).trans runs), hfixtures]
      exact ⟨rfl, rfl, h⟩
    | ok s =>
      rw [suite_of_runs hplan runs,
        suite_of_runs (hplan'.trans hplan) ((congrArg _ (hfixtures p)).trans runs), hfixtures]
      exact ⟨rfl, report_relisted h now c p s⟩

end Relisted

end Touchstone
