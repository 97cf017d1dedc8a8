import Touchstone.Diff.Hunk
import Touchstone.Proofs.Diff.Sides

/-!
# Hunks among unchanged lines

The blocks of a script have the sides of the script.  The hunks made of them are parts of both lists
in order, and what lies before, between and behind them is the same in both.

## Main definitions

* `Touchstone.Diff.Laid` : hunks in two lists, with the same lines between them.

## Main results

* `Touchstone.Diff.laid_hunks` : the hunks of some blocks are laid in the sides of the blocks.
* `Touchstone.Diff.hunks_of_kept` : one kept run has no hunks.
-/

namespace Touchstone.Diff

variable {α : Type}

/-! ### Sides of blocks -/

/-- The old lines of some blocks. -/
def oldOf (blocks : List (Block α)) : List α := blocks.flatMap Block.old

/-- The new lines of some blocks. -/
def newOf (blocks : List (Block α)) : List α := blocks.flatMap Block.new

@[simp] theorem oldOf_nil : oldOf ([] : List (Block α)) = [] := rfl

@[simp] theorem newOf_nil : newOf ([] : List (Block α)) = [] := rfl

@[simp] theorem oldOf_cons (b : Block α) (rest : List (Block α)) :
    oldOf (b :: rest) = b.old ++ oldOf rest := rfl

@[simp] theorem newOf_cons (b : Block α) (rest : List (Block α)) :
    newOf (b :: rest) = b.new ++ newOf rest := rfl

@[simp] theorem oldOf_append (s t : List (Block α)) : oldOf (s ++ t) = oldOf s ++ oldOf t :=
  List.flatMap_append

@[simp] theorem newOf_append (s t : List (Block α)) : newOf (s ++ t) = newOf s ++ newOf t :=
  List.flatMap_append

/-- A step adds its lines to the sides of the blocks before it. -/
theorem sides_addStep (done : List (Block α)) (s : Step α) :
    oldOf (addStep done s).reverse = oldOf done.reverse ++ s.old ∧
      newOf (addStep done s).reverse = newOf done.reverse ++ s.new := by
  obtain ⟨kind, pos, lines⟩ := s
  cases kind with
  | keep => rw [addStep.eq_def]; split <;> simp_all [Step.old, Step.new, Block.old, Block.new]
  | delete => rw [addStep.eq_def]; split <;> simp_all [Step.old, Step.new, Block.old, Block.new]
  | insert => rw [addStep.eq_def]; split <;> simp_all [Step.old, Step.new, Block.old, Block.new]

theorem sides_foldl_addStep (script : List (Step α)) (done : List (Block α)) :
    oldOf (script.foldl addStep done).reverse = oldOf done.reverse ++ oldLines script ∧
      newOf (script.foldl addStep done).reverse = newOf done.reverse ++ newLines script := by
  induction script generalizing done with
  | nil => simp
  | cons s script ih =>
    obtain ⟨hold, hnew⟩ := ih (addStep done s)
    rw [List.foldl_cons, hold, hnew, (sides_addStep done s).1, (sides_addStep done s).2]
    simp

/-- The blocks of a script have its old side. -/
theorem oldOf_blocks (script : List (Step α)) : oldOf (blocks script) = oldLines script :=
  (sides_foldl_addStep script []).1

/-- The blocks of a script have its new side. -/
theorem newOf_blocks (script : List (Step α)) : newOf (blocks script) = newLines script :=
  (sides_foldl_addStep script []).2

/-! ### Hunks with the same lines between them -/

/-- Hunks lie in two lists: between them, before the first and behind the last, the two lists have
the same lines. -/
inductive Laid : List (List (Block α)) → List α → List α → Prop
  | nil (gap : List α) : Laid [] gap gap
  | cons (gap : List α) (hunk : List (Block α)) {hunks : List (List (Block α))} {old new : List α}
      (later : Laid hunks old new) :
      Laid (hunk :: hunks) (gap ++ (oldOf hunk ++ old)) (gap ++ (newOf hunk ++ new))

namespace Laid

variable {hunks : List (List (Block α))} {old new : List α}

/-- The same lines can be put in front of both lists. -/
theorem prepend (h : Laid hunks old new) (lines : List α) :
    Laid hunks (lines ++ old) (lines ++ new) := by
  cases h with
  | nil => exact .nil _
  | cons gap hunk later => simpa [List.append_assoc] using Laid.cons (lines ++ gap) hunk later

/-- The same lines can be put behind both lists. -/
theorem append (h : Laid hunks old new) (lines : List α) :
    Laid hunks (old ++ lines) (new ++ lines) := by
  induction h with
  | nil gap => exact .nil (gap ++ lines)
  | cons gap hunk _ ih => simpa [List.append_assoc] using .cons gap hunk ih

/-- Lists without hunks are the same. -/
theorem eq_of_nil (h : Laid [] old new) : old = new := by
  cases h
  rfl

/-- The old lines of a hunk are lines of the first list. -/
theorem old_mem (h : Laid hunks old new) {hunk : List (Block α)} {line : α} (mem : hunk ∈ hunks)
    (hline : line ∈ oldOf hunk) : line ∈ old := by
  induction h with
  | nil gap => simp at mem
  | cons gap hunk' later ih =>
    rcases List.mem_cons.1 mem with rfl | mem
    · simp [hline]
    · simp [ih mem]

/-- The new lines of a hunk are lines of the second list. -/
theorem new_mem (h : Laid hunks old new) {hunk : List (Block α)} {line : α} (mem : hunk ∈ hunks)
    (hline : line ∈ newOf hunk) : line ∈ new := by
  induction h with
  | nil gap => simp at mem
  | cons gap hunk' later ih =>
    rcases List.mem_cons.1 mem with rfl | mem
    · simp [hline]
    · simp [ih mem]

end Laid

/-! ### The hunks of some blocks -/

/-- A hunk that is closed is laid in its own sides. -/
theorem laid_closeHunk (hunk : List (Block α)) :
    Laid (closeHunk hunk) (oldOf hunk.reverse) (newOf hunk.reverse) := by
  rw [closeHunk.eq_def]
  split
  · exact .nil []
  · exact .nil _
  · simpa using Laid.cons [] hunk.reverse (.nil [])

/-- A long kept run is its first lines, the lines that are not shown, and its last lines. -/
theorem split_long (radius : Nat) {lines : List α} (h : 2 * radius < lines.length) :
    ∃ hidden, ∀ rest,
      lines.take radius ++ (hidden ++ (lines.drop (lines.length - radius) ++ rest)) =
        lines ++ rest := by
  refine ⟨(lines.drop radius).take (lines.length - 2 * radius), fun rest => ?_⟩
  have hdrop : lines.drop (lines.length - radius) =
      (lines.drop radius).drop (lines.length - 2 * radius) := by
    rw [List.drop_drop]
    congr 1
    omega
  rw [hdrop, take_append_drop_append, take_append_drop_append]

/-- The hunks of the remaining blocks are laid in the sides of the open hunk and those blocks. -/
theorem laid_hunksFrom (radius : Nat) (hunk rest : List (Block α)) :
    Laid (hunksFrom radius hunk rest) (oldOf (hunk.reverse ++ rest))
      (newOf (hunk.reverse ++ rest)) := by
  fun_induction hunksFrom radius hunk rest with
  | case1 hunk => simpa using laid_closeHunk hunk
  | case2 hunk pos lines rest block long ih =>
    obtain ⟨hidden, hlines⟩ := split_long radius long
    have hlaid := Laid.cons [] (block.firstLines radius :: hunk).reverse (ih.prepend hidden)
    simp only [block, Block.firstLines, Block.lastLines, Block.old, Block.new, List.reverse_cons,
      List.reverse_nil, List.nil_append, List.append_nil, List.append_assoc, oldOf_append,
      newOf_append, oldOf_cons, newOf_cons, oldOf_nil, newOf_nil, hlines] at hlaid ⊢
    exact hlaid
  | case3 hunk pos lines rest block short ih => simpa using ih
  | case4 hunk block rest change ih => simpa using ih

/-- The last lines of a block are behind lines of both lists. -/
theorem Block.exists_lastLines (radius : Nat) (b : Block α) :
    ∃ gap, b.old = gap ++ (b.lastLines radius).old ∧ b.new = gap ++ (b.lastLines radius).new := by
  cases b with
  | keep pos lines =>
    exact ⟨lines.take (lines.length - radius), by simp [Block.lastLines, Block.old, Block.new]⟩
  | change pos deleted inserted => exact ⟨[], rfl, rfl⟩

/-- The first lines of a block are in front of lines of both lists. -/
theorem Block.exists_firstLines (radius : Nat) (b : Block α) :
    ∃ gap, b.old = (b.firstLines radius).old ++ gap ∧ b.new = (b.firstLines radius).new ++ gap := by
  cases b with
  | keep pos lines =>
    exact ⟨lines.drop radius, by simp [Block.firstLines, Block.old, Block.new]⟩
  | change pos deleted inserted => exact ⟨[], by simp [Block.firstLines]⟩

/-- Cutting the ends cuts the last block of the blocks whose first one is cut. -/
theorem trimEnds_of_eq_concat {radius : Nat} {first last : Block α} {rest init : List (Block α)}
    (h : first.lastLines radius :: rest = init ++ [last]) :
    trimEnds radius (first :: rest) = init ++ [last.firstLines radius] := by
  simp [trimEnds, h]

/-- Cutting the ends takes the same lines off both lists. -/
theorem exists_trimEnds (radius : Nat) (all : List (Block α)) :
    ∃ front behind, oldOf all = front ++ (oldOf (trimEnds radius all) ++ behind) ∧
      newOf all = front ++ (newOf (trimEnds radius all) ++ behind) := by
  cases all with
  | nil => exact ⟨[], [], rfl, rfl⟩
  | cons first rest =>
    obtain ⟨front, holdFront, hnewFront⟩ := first.exists_lastLines radius
    obtain ⟨init, last, hall⟩ :
        ∃ init last, first.lastLines radius :: rest = init ++ [last] :=
      ⟨_, _, (List.dropLast_concat_getLast (List.cons_ne_nil _ _)).symm⟩
    obtain ⟨behind, holdBehind, hnewBehind⟩ := last.exists_firstLines radius
    have htrim := trimEnds_of_eq_concat hall
    have hold := congrArg oldOf hall
    have hnew := congrArg newOf hall
    simp only [oldOf_cons, oldOf_append, newOf_cons, newOf_append, oldOf_nil, newOf_nil,
      List.append_nil, holdBehind, hnewBehind] at hold hnew
    refine ⟨front, behind, ?_, ?_⟩
    · simp [htrim, holdFront, hold]
    · simp [htrim, hnewFront, hnew]

/-- The hunks of some blocks are laid in the sides of the blocks. -/
theorem laid_hunks (radius : Nat) (all : List (Block α)) :
    Laid (hunks radius all) (oldOf all) (newOf all) := by
  obtain ⟨front, behind, hold, hnew⟩ := exists_trimEnds radius all
  rw [hold, hnew]
  exact ((laid_hunksFrom radius [] (trimEnds radius all)).append behind).prepend front

/-- No hunk is empty. -/
theorem ne_nil_of_mem_hunksFrom {radius : Nat} {hunk rest h : List (Block α)}
    (mem : h ∈ hunksFrom radius hunk rest) : h ≠ [] := by
  fun_induction hunksFrom radius hunk rest with
  | case1 hunk =>
    rw [closeHunk.eq_def] at mem
    split at mem
    · simp at mem
    · simp at mem
    · simp_all
  | case2 hunk pos lines rest block long ih =>
    rcases List.mem_cons.1 mem with rfl | mem
    · simp
    · exact ih mem
  | case3 hunk pos lines rest block short ih => exact ih mem
  | case4 hunk block rest change ih => exact ih mem

/-- One kept run has no hunks. -/
theorem hunks_of_kept (radius : Nat) (pos : Position) (lines : List α) :
    hunks radius (blocks (step? .keep pos lines)) = [] := by
  rw [step?]
  split
  · rfl
  · have hshort (n : Nat) : ¬ 2 * radius < min radius n := by omega
    simp [blocks, addStep, hunks, trimEnds, Block.lastLines, Block.firstLines, hunksFrom, hshort,
      closeHunk]

end Touchstone.Diff
