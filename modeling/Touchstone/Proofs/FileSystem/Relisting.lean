import Mathlib
import Touchstone.FileSystem.Resolve

/-!
# Listing directories in another order

The entries of a directory are listed in no particular order.  Paths are resolved by looking up
names, so a file system that holds the same nodes and lists them otherwise leads every path to the
same node, and each of its directories has the same entries.

## Main definitions

* `Touchstone.FileSystem.Relisted` : two file systems that differ in the order of their listings.

## Main results

* `Touchstone.FileSystem.relisted_of_perm` : nodes at distinct locations can be put in any order.
* `Touchstone.FileSystem.Relisted.target` : a path leads to the same node in both file systems.
* `Touchstone.FileSystem.Relisted.readDirectory` : a directory has the same entries in both.
-/

namespace Touchstone.FileSystem

/-- Two file systems hold the same nodes, and each lists its directories in an order of its own. -/
structure Relisted (fs fs' : FileSystem) : Prop where
  current : fs'.current = fs.current
  node? : ∀ place, fs'.node? place = fs.node? place
  children : ∀ place, (fs'.children place).Perm (fs.children place)

/-! ### Nodes in another order -/

theorem lookup_perm {nodes nodes' : List (Location × Node)} (perm : nodes'.Perm nodes)
    (distinct : (nodes'.map Prod.fst).Nodup) (place : Location) :
    nodes'.lookup place = nodes.lookup place := by
  induction perm with
  | nil => rfl
  | cons entry _ ih =>
    rw [List.map_cons, List.nodup_cons] at distinct
    rw [List.lookup_cons, List.lookup_cons, ih distinct.2]
  | swap a b nodes =>
    have hne : b.1 ≠ a.1 := by
      simp only [List.map_cons, List.nodup_cons, List.mem_cons, not_or] at distinct
      exact distinct.1.1
    rw [List.lookup_cons, List.lookup_cons, List.lookup_cons, List.lookup_cons]
    cases hb : place == b.1 with
    | false => rfl
    | true =>
      have ha : (place == a.1) = false := by
        rw [beq_iff_eq.1 hb]
        exact beq_false_of_ne hne
      rw [ha]
  | trans first _ ih ih' =>
    rw [ih distinct, ih' ((first.map Prod.fst).nodup_iff.1 distinct)]

/-- Nodes at distinct locations can be put in any order. -/
theorem relisted_of_perm {nodes nodes' : List (Location × Node)} (perm : nodes'.Perm nodes)
    (distinct : (nodes'.map Prod.fst).Nodup) (current : Location) :
    Relisted ⟨nodes, current⟩ ⟨nodes', current⟩ where
  current := rfl
  node? place := by simp only [FileSystem.node?, lookup_perm perm distinct]
  children place := perm.filterMap _

/-! ### Paths -/

theorem readDirectory_eq_ok_iff {fs : FileSystem} {p : Path} {names : List Name} :
    fs.readDirectory p = .ok names ↔
      ∃ place, fs.locate p = .ok place ∧ fs.node? place = some .directory ∧
        fs.children place = names := by
  rw [readDirectory]
  cases fs.locate p with
  | error e => simp
  | ok place =>
    cases hnode : fs.node? place with
    | none => simp [hnode]
    | some node => cases node <;> simp [hnode]

namespace Relisted

variable {fs fs' : FileSystem} (h : Relisted fs fs')

include h

/-- The walk looks up nodes and nothing else, so it goes the same way in both file systems. -/
theorem walk (goal : Goal) (links : Nat) (here : Location) (names : List Name) :
    fs'.walk goal links here names = fs.walk goal links here names := by
  -- a link restarts the walk with one link less to follow, any other name shortens the way
  induction links generalizing here names with
  | zero =>
    induction names generalizing here with
    | nil => rw [FileSystem.walk, FileSystem.walk]
    | cons name rest ih =>
      rw [FileSystem.walk, FileSystem.walk]
      simp only [h.node?, ih]
  | succ links ihLinks =>
    induction names generalizing here with
    | nil => rw [FileSystem.walk, FileSystem.walk]
    | cons name rest ih =>
      rw [FileSystem.walk, FileSystem.walk]
      simp only [h.node?, ih, ihLinks]

theorem locate (p : Path) : fs'.locate p = fs.locate p := by
  simp only [FileSystem.locate, FileSystem.find, h.walk, h.current]

theorem canonical (p : Path) : fs'.canonical p = fs.canonical p := by
  rw [FileSystem.canonical, FileSystem.canonical, h.locate]

theorem target (p : Path) : fs'.target p = fs.target p := by
  simp only [FileSystem.target, h.locate, h.node?]

theorem isFile (p : Path) : fs'.isFile p = fs.isFile p := by
  rw [FileSystem.isFile, FileSystem.isFile, h.target]

theorem readText (p : Path) : fs'.readText p = fs.readText p := by
  simp only [FileSystem.readText, FileSystem.contentOf, h.target]

theorem readDirectory {p : Path} {names : List Name} (hnames : fs.readDirectory p = .ok names) :
    ∃ names', fs'.readDirectory p = .ok names' ∧ names'.Perm names := by
  obtain ⟨place, hplace, hnode, rfl⟩ := readDirectory_eq_ok_iff.1 hnames
  have hplace' := (h.locate p).trans hplace
  have hnode' := (h.node? place).trans hnode
  exact ⟨_, readDirectory_eq_ok_iff.2 ⟨place, hplace', hnode', rfl⟩, h.children place⟩

end Relisted

end Touchstone.FileSystem
