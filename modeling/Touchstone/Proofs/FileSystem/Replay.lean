import Touchstone.Proofs.FileSystem.Growth
import Touchstone.Proofs.FileSystem.Relisting

/-!
# Changes under another listing

Two file systems that hold the same nodes and list them in different orders answer a request in the
same way, and hold the same nodes after it.

## Main definitions

* `Touchstone.FileSystem.Replays` : two changes have the same result and leave the same nodes.

## Main results

* `Touchstone.FileSystem.Relisted.makeDirectories`, `Touchstone.FileSystem.Relisted.writeFile` : the
  same request is answered in the same way.
-/

namespace Touchstone.FileSystem

/-- Two changes have the same result and leave the same nodes. -/
structure Replays {ε : Type} (done done' : Except ε Unit × FileSystem) : Prop where
  result : done'.1 = done.1
  files : Relisted done.2 done'.2

theorem Replays.exists_files {ε : Type} {done done' : Except ε Unit × FileSystem}
    (h : Replays done done') : ∃ result files files', done = (result, files) ∧
      done' = (result, files') ∧ Relisted files files' :=
  ⟨done.1, done.2, done'.2, rfl, Prod.ext h.result rfl, h.files⟩

namespace Relisted

variable {fs fs' : FileSystem} (h : Relisted fs fs')

include h

theorem find (goal : Goal) (p : Path) : fs'.find goal p = fs.find goal p := by
  simp only [FileSystem.find, h.walk, h.current]

theorem isDirectory (p : Path) : fs'.isDirectory p = fs.isDirectory p := by
  rw [FileSystem.isDirectory, FileSystem.isDirectory, h.target]

theorem contentOf (p : Path) : fs'.contentOf p = fs.contentOf p := by
  simp only [FileSystem.contentOf, h.target]

/-- The same node put in place. -/
theorem put (place : Location) (node : Node) : Relisted (fs.put place node) (fs'.put place node)
    where
  current := h.current
  node? other := by
    by_cases hother : other = place
    · subst hother
      by_cases hne : other = []
      · simp [FileSystem.node?, hne]
      · rw [node?_put_self hne, node?_put_self hne]
    · rw [node?_put_of_ne hother, node?_put_of_ne hother, h.node?]
  children here := by
    rw [children_put, children_put]
    exact ((h.children here).filter _).append_left _

/-! ### Directories -/

theorem vacancy (p : Path) : fs'.vacancy p = fs.vacancy p := by
  simp only [FileSystem.vacancy, h.walk, h.current, h.node?]

theorem makeDirectory (p : Path) : Replays (fs.makeDirectory p) (fs'.makeDirectory p) := by
  rw [FileSystem.makeDirectory, FileSystem.makeDirectory, h.vacancy]
  cases fs.vacancy p with
  | error e => exact ⟨rfl, h⟩
  | ok place => exact ⟨rfl, h.put place .directory⟩

end Relisted

theorem Replays.orDirectory (p : Path) {done done' : Change} (h : Replays done done') :
    Replays (orDirectory p done) (orDirectory p done') := by
  obtain ⟨result, files, files', rfl, rfl, relisted⟩ := h.exists_files
  cases result with
  | error e => exact ⟨by simp [FileSystem.orDirectory, relisted.isDirectory], relisted⟩
  | ok => exact ⟨rfl, relisted⟩

namespace Relisted

variable {fs fs' : FileSystem} (h : Relisted fs fs')

include h

theorem makeFirst (paths : List Path) : Replays (fs.makeFirst paths) (fs'.makeFirst paths) := by
  induction paths with
  | nil => exact ⟨rfl, h⟩
  | cons p above ih =>
    rw [FileSystem.makeFirst, FileSystem.makeFirst]
    split
    · exact ⟨rfl, h⟩
    · obtain ⟨result, made, made', hmake, hmake', relisted⟩ := (h.makeDirectory p).exists_files
      rw [hmake, hmake']
      cases result with
      | ok => exact ⟨rfl, relisted⟩
      | error e =>
        dsimp only
        split
        · obtain ⟨result, before, before', hfirst, hfirst', relisted⟩ := ih.exists_files
          rw [hfirst, hfirst']
          cases result with
          | error e => exact ⟨rfl, relisted⟩
          | ok => exact (relisted.makeDirectory p).orDirectory p
        · exact .orDirectory p ⟨rfl, h⟩

theorem makeDirectories (p : Path) : Replays (fs.makeDirectories p) (fs'.makeDirectories p) :=
  h.makeFirst _

/-! ### Files -/

theorem writeFile (p : Path) (content : List UInt8) :
    Replays (fs.writeFile p content) (fs'.writeFile p content) := by
  rw [FileSystem.writeFile, FileSystem.writeFile, h.find]
  cases fs.find .created p with
  | error e => exact ⟨rfl, h⟩
  | ok place =>
    dsimp only
    rw [h.node?]
    rcases fs.node? place with _ | (_ | ⟨old, executable⟩ | target | taken)
    · exact ⟨rfl, h.put _ _⟩
    · exact ⟨rfl, h⟩
    · exact ⟨rfl, h.put _ _⟩
    · exact ⟨rfl, h⟩
    · exact ⟨rfl, h.put _ _⟩

end Relisted

end Touchstone.FileSystem
