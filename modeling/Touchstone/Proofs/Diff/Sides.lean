import Touchstone.Diff.Divide
import Touchstone.Proofs.Diff.Move

/-!
# The two sides of a script

The first script of two lists has those lists as its sides: no line is lost and none is invented.
Every move of a script leaves both sides as they are, and so does sliding.

## Main definitions

* `Touchstone.Diff.SameSides` : two scripts relate the same two lists.

## Main results

* `Touchstone.Diff.oldLines_steps`, `Touchstone.Diff.newLines_steps` : the sides of the first
  script.
* `Touchstone.Diff.Move.sameSides` : a move keeps both sides.
* `Touchstone.Diff.oldLines_compact_steps`, `Touchstone.Diff.newLines_compact_steps` : the sides of
  the script that is displayed.
-/

namespace Touchstone.Diff

open Relation (ReflTransGen)

variable {α : Type}

/-! ### Sides of a script -/

@[simp] theorem oldLines_nil : oldLines ([] : List (Step α)) = [] := rfl

@[simp] theorem newLines_nil : newLines ([] : List (Step α)) = [] := rfl

@[simp] theorem oldLines_cons (s : Step α) (rest : List (Step α)) :
    oldLines (s :: rest) = s.old ++ oldLines rest := rfl

@[simp] theorem newLines_cons (s : Step α) (rest : List (Step α)) :
    newLines (s :: rest) = s.new ++ newLines rest := rfl

@[simp] theorem oldLines_append (s t : List (Step α)) :
    oldLines (s ++ t) = oldLines s ++ oldLines t := List.flatMap_append

@[simp] theorem newLines_append (s t : List (Step α)) :
    newLines (s ++ t) = newLines s ++ newLines t := List.flatMap_append

@[simp] theorem oldLines_step? (kind : Kind) (pos : Position) (lines : List α) :
    oldLines (step? kind pos lines) = (Step.mk kind pos lines).old := by
  rw [step?]
  split
  · rename_i h
    cases kind <;> simp [Step.old, List.isEmpty_iff.1 h]
  · simp

@[simp] theorem newLines_step? (kind : Kind) (pos : Position) (lines : List α) :
    newLines (step? kind pos lines) = (Step.mk kind pos lines).new := by
  rw [step?]
  split
  · rename_i h
    cases kind <;> simp [Step.new, List.isEmpty_iff.1 h]
  · simp

/-- Two scripts relate the same two lists. -/
structure SameSides (s t : List (Step α)) : Prop where
  old : oldLines s = oldLines t
  new : newLines s = newLines t

namespace SameSides

variable {s t u : List (Step α)}

theorem refl (s : List (Step α)) : SameSides s s := ⟨rfl, rfl⟩

theorem trans (h : SameSides s t) (h' : SameSides t u) : SameSides s u :=
  ⟨h.old.trans h'.old, h.new.trans h'.new⟩

end SameSides

/-! ### Lines shared at an end -/

variable [DecidableEq α]

theorem sharedFrom_eq (n : Nat) (as bs : List α) :
    sharedFrom n as bs = n + sharedPrefix as bs := by
  induction as generalizing n bs with
  | nil => cases bs <;> rfl
  | cons a as ih =>
    cases bs with
    | nil => rfl
    | cons b bs =>
      rw [sharedPrefix, sharedFrom, sharedFrom]
      split
      · rw [ih (n + 1), ih (0 + 1)]
        omega
      · rfl

theorem sharedPrefix_cons (a b : α) (as bs : List α) :
    sharedPrefix (a :: as) (b :: bs) = if a = b then sharedPrefix as bs + 1 else 0 := by
  rw [sharedPrefix, sharedFrom, sharedFrom_eq]
  split
  · omega
  · rfl

/-- Two lists begin with the same lines, as many as they share at their start. -/
theorem take_sharedPrefix (as bs : List α) :
    as.take (sharedPrefix as bs) = bs.take (sharedPrefix as bs) := by
  induction as generalizing bs with
  | nil => cases bs <;> simp [sharedPrefix, sharedFrom]
  | cons a as ih =>
    cases bs with
    | nil => simp [sharedPrefix, sharedFrom]
    | cons b bs =>
      rw [sharedPrefix_cons]
      split
      · rename_i h
        rw [List.take_succ_cons, List.take_succ_cons, ih, h]
      · rfl

/-- Two lists end with the same lines, as many as they share at their end. -/
theorem drop_sharedSuffix (as bs : List α) :
    as.drop (as.length - sharedSuffix as bs) = bs.drop (bs.length - sharedSuffix as bs) := by
  have h := congrArg List.reverse (take_sharedPrefix as.reverse bs.reverse)
  simpa [sharedSuffix, List.take_reverse] using h

/-! ### The first script -/

/-- The first script relates the two lists that it was made for. -/
theorem sides_stepsFrom (pos : Position) (old new : List α) :
    oldLines (stepsFrom pos old new) = old ∧ newLines (stepsFrom pos old new) = new := by
  fun_induction stepsFrom pos old new with
  | case1 pos old new start oldRest newRest finish oldMid newMid mid replaced ih₂ ih₁ =>
    have hreplaced : oldLines replaced = oldMid ∧ newLines replaced = newMid := by
      simp [replaced, Step.old, Step.new]
    have hstart : new.take start = old.take start := (take_sharedPrefix old new).symm
    have hfinish : newRest.drop (newRest.length - finish) =
        oldRest.drop (oldRest.length - finish) := (drop_sharedSuffix oldRest newRest).symm
    have hold : old.take start ++ (oldMid ++ oldRest.drop (oldRest.length - finish)) = old := by
      rw [List.take_append_drop, List.take_append_drop]
    have hnew : old.take start ++ (newMid ++ oldRest.drop (oldRest.length - finish)) = new := by
      rw [← hfinish, ← hstart, List.take_append_drop, List.take_append_drop]
    simp only [oldLines_append, newLines_append, oldLines_step?, newLines_step?, Step.old, Step.new,
      List.append_assoc]
    clear_value oldMid newMid
    split
    · rw [hreplaced.1, hreplaced.2]
      exact ⟨hold, hnew⟩
    · split
      · rename_i x y hsplit
        obtain ⟨hold₁, hnew₁⟩ := ih₁ x y hsplit
        obtain ⟨hold₂, hnew₂⟩ := ih₂ x y hsplit
        rw [oldLines_append, newLines_append, hold₁, hold₂, hnew₁, hnew₂, List.take_append_drop,
          List.take_append_drop]
        exact ⟨hold, hnew⟩
      · rw [hreplaced.1, hreplaced.2]
        exact ⟨hold, hnew⟩

/-- The old side of the first script is the old list. -/
theorem oldLines_steps (old new : List α) : oldLines (steps old new) = old :=
  (sides_stepsFrom _ old new).1

/-- The new side of the first script is the new list. -/
theorem newLines_steps (old new : List α) : newLines (steps old new) = new :=
  (sides_stepsFrom _ old new).2

theorem sharedPrefix_self (as : List α) : sharedPrefix as as = as.length := by
  induction as with
  | nil => rfl
  | cons a as ih => rw [sharedPrefix_cons, if_pos rfl, ih, List.length_cons]

/-- The first script of a list and itself keeps all lines in one step. -/
theorem steps_self (lines : List α) : steps lines lines = step? .keep ⟨0, 0⟩ lines := by
  have hnone (kind : Kind) (pos : Position) : step? kind pos ([] : List α) = [] := rfl
  rw [steps, stepsFrom]
  simp [sharedPrefix_self, hnone]

/-- A script that keeps all lines in one step is not rearranged. -/
theorem compact_step?_keep (pos : Position) (lines : List α) :
    compact (step? .keep pos lines) = step? .keep pos lines := by
  have hslide (kind : Kind) (changes : kind ≠ .keep) :
      slide kind (step? .keep pos lines) = step? .keep pos lines := by
    rw [step?]
    split
    · simp [slide, slideFrom]
    · simp [slide, slideFrom, changes.symm]
  rw [compact, hslide .delete (by decide), hslide .insert (by decide)]

/-! ### Moves -/

section Keep

omit [DecidableEq α]

theorem old_of_lines_eq_nil {s : Step α} (h : s.lines = []) : s.old = [] := by
  rw [Step.old, h]
  split <;> rfl

theorem new_of_lines_eq_nil {s : Step α} (h : s.lines = []) : s.new = [] := by
  rw [Step.new, h]
  split <;> rfl

theorem oldLines_keepUnlessEmpty (s : Step α) (rest : List (Step α)) :
    oldLines (keepUnlessEmpty s rest) = s.old ++ oldLines rest := by
  rw [keepUnlessEmpty]
  split
  · rename_i h
    rw [old_of_lines_eq_nil (List.isEmpty_iff.1 h), List.nil_append]
  · rfl

theorem newLines_keepUnlessEmpty (s : Step α) (rest : List (Step α)) :
    newLines (keepUnlessEmpty s rest) = s.new ++ newLines rest := by
  rw [keepUnlessEmpty]
  split
  · rename_i h
    rw [new_of_lines_eq_nil (List.isEmpty_iff.1 h), List.nil_append]
  · rfl

theorem sides_keepBefore (pos : Position) (lines : List α) (rest : List (Step α)) :
    oldLines (keepBefore pos lines rest) = lines ++ oldLines rest ∧
      newLines (keepBefore pos lines rest) = lines ++ newLines rest := by
  rw [keepBefore.eq_def]
  split <;> simp [Step.old, Step.new]

theorem sides_keepAfter (pos : Position) (lines : List α) (before : List (Step α)) :
    oldLines (keepAfter pos lines before).reverse = oldLines before.reverse ++ lines ∧
      newLines (keepAfter pos lines before).reverse = newLines before.reverse ++ lines := by
  rw [keepAfter.eq_def]
  split <;> simp [Step.old, Step.new]

end Keep

/-- A step passes up only if it inserts lines, and its last lines are then those of the kept run. -/
theorem passUp_ne_zero {kept change : Step α} (h : passUp kept change ≠ 0) :
    change.kind = .insert ∧
      kept.lines.drop (kept.lines.length - passUp kept change) =
        change.lines.drop (change.lines.length - passUp kept change) := by
  rw [passUp] at h ⊢
  split at h
  · rename_i hkind
    simp only [hkind, true_and]
    exact drop_sharedSuffix kept.lines change.lines
  · exact absurd rfl h

/-- A step passes down only if it inserts lines, and its first lines are then those of the kept
run. -/
theorem passDown_ne_zero {kept change : Step α} (h : passDown kept change ≠ 0) :
    change.kind = .insert ∧
      kept.lines.take (passDown kept change) = change.lines.take (passDown kept change) := by
  rw [passDown] at h ⊢
  split at h
  · rename_i hkind
    simp only [hkind, true_and]
    exact take_sharedPrefix kept.lines change.lines
  · exact absurd rfl h

omit [DecidableEq α] in
theorem take_append_drop_append (n : Nat) (lines rest : List α) :
    lines.take n ++ (lines.drop n ++ rest) = lines ++ rest := by
  rw [← List.append_assoc, List.take_append_drop]

/-- A move keeps both sides. -/
theorem Move.sameSides {s t : List (Step α)} (h : Move s t) : SameSides s t := by
  cases h with
  | drop pre post keeps empty =>
    constructor
    · simp [old_of_lines_eq_nil empty]
    · simp [new_of_lines_eq_nil empty]
  | @join pre post s t same changes =>
    cases ht : t.kind with
    | keep => exact absurd ht changes
    | delete => constructor <;> simp [Step.old, Step.new, same, ht]
    | insert => constructor <;> simp [Step.old, Step.new, same, ht]
  | @swap pre post s t differ changes changes' =>
    have hkinds : s.kind = .delete ∧ t.kind = .insert ∨ s.kind = .insert ∧ t.kind = .delete := by
      cases hs : s.kind <;> cases ht : t.kind <;> simp_all
    rcases hkinds with ⟨hs, ht⟩ | ⟨hs, ht⟩
    · constructor <;> simp [Step.old, Step.new, hs, ht]
    · constructor <;> simp [Step.old, Step.new, hs, ht]
  | @rise pre post kept change keeps n passes pos =>
    subst passes
    obtain ⟨hinsert, hmoved⟩ := passUp_ne_zero pos
    have hchange (rest : List α) : change.lines.take (change.lines.length - passUp kept change) ++
        (kept.lines.drop (kept.lines.length - passUp kept change) ++ rest) =
          change.lines ++ rest := by
      rw [hmoved, take_append_drop_append]
    constructor
    · simp only [oldLines_append, oldLines_cons, oldLines_keepUnlessEmpty,
        (sides_keepBefore _ _ _).1, Step.old, keeps, hinsert, List.nil_append,
        take_append_drop_append]
    · simp only [newLines_append, newLines_cons, newLines_keepUnlessEmpty,
        (sides_keepBefore _ _ _).2, Step.new, keeps, hinsert, List.append_assoc,
        take_append_drop_append, hchange]
  | @sink pre post change kept keeps n passes pos =>
    subst passes
    obtain ⟨hinsert, hmoved⟩ := passDown_ne_zero pos
    have hchange (rest : List α) : kept.lines.take (passDown kept change) ++
        (change.lines.drop (passDown kept change) ++ rest) = change.lines ++ rest := by
      rw [hmoved, take_append_drop_append]
    constructor
    · simp only [oldLines_append, oldLines_cons, oldLines_keepUnlessEmpty,
        (sides_keepAfter _ _ _).1, Step.old, keeps, hinsert, List.reverse_reverse, List.nil_append,
        List.append_assoc, take_append_drop_append]
    · simp only [newLines_append, newLines_cons, newLines_keepUnlessEmpty,
        (sides_keepAfter _ _ _).2, Step.new, keeps, hinsert, List.reverse_reverse,
        List.append_assoc, hchange, take_append_drop_append]

/-- A chain of moves keeps both sides. -/
theorem sameSides_of_moves {s t : List (Step α)} (h : ReflTransGen Move s t) : SameSides s t := by
  induction h with
  | refl => exact .refl s
  | tail _ hmove ih => exact ih.trans hmove.sameSides

/-- The old side of the script that is displayed is the old list. -/
theorem oldLines_compact_steps (old new : List α) : oldLines (compact (steps old new)) = old :=
  (sameSides_of_moves (moves_compact _)).old.symm.trans (oldLines_steps old new)

/-- The new side of the script that is displayed is the new list. -/
theorem newLines_compact_steps (old new : List α) : newLines (compact (steps old new)) = new :=
  (sameSides_of_moves (moves_compact _)).new.symm.trans (newLines_steps old new)

end Touchstone.Diff
