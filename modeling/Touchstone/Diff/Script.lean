/-!
# Edit scripts

An edit script turns one list of lines into another.  It is a list of steps, each of which keeps,
deletes or inserts a run of lines.  A step carries the lines themselves and the position at which it
was made; the lines of the old list are those of the kept and deleted runs in order, the lines of
the new list those of the kept and inserted runs.

The position of a step is a record of where it was made.  Rearranging a script moves a step without
renewing the half of its position that has no lines on it, so a position is part of the script and
is not recomputed from the steps before it.

## Main definitions

* `Touchstone.Diff.Step` : one step of a script.
* `Touchstone.Diff.oldLines`, `Touchstone.Diff.newLines` : the two lists that a script relates.
* `Touchstone.Diff.sharedPrefix`, `Touchstone.Diff.sharedSuffix` : how many lines two lists share at
  an end.
-/

namespace Touchstone.Diff

/-- A position in both lists, each counted in lines from zero. -/
structure Position where
  /-- The line in the old list. -/
  old : Nat
  /-- The line in the new list. -/
  new : Nat
  deriving DecidableEq, Repr

namespace Position

/-- The position `x` lines further in the old list and `y` lines further in the new one. -/
def advance (p : Position) (x y : Nat) : Position := ⟨p.old + x, p.new + y⟩

/-- The position `n` lines back in both lists. -/
def back (p : Position) (n : Nat) : Position := ⟨p.old - n, p.new - n⟩

end Position

/-- What a step does with its lines. -/
inductive Kind where
  /-- The lines stand in both lists. -/
  | keep
  /-- The lines stand in the old list only. -/
  | delete
  /-- The lines stand in the new list only. -/
  | insert
  deriving DecidableEq, Repr

/-- One step of an edit script. -/
structure Step (α : Type) where
  /-- What the step does. -/
  kind : Kind
  /-- Where the step was made. -/
  pos : Position
  /-- The lines of the step. -/
  lines : List α
  deriving DecidableEq, Repr

variable {α : Type}

/-! ### The two sides of a script -/

/-- The lines of a step that stand in the old list. -/
def Step.old (s : Step α) : List α :=
  match s.kind with
  | .keep | .delete => s.lines
  | .insert => []

/-- The lines of a step that stand in the new list. -/
def Step.new (s : Step α) : List α :=
  match s.kind with
  | .keep | .insert => s.lines
  | .delete => []

/-- The old list of a script. -/
def oldLines (script : List (Step α)) : List α := script.flatMap Step.old

/-- The new list of a script. -/
def newLines (script : List (Step α)) : List α := script.flatMap Step.new

/-- The room that a script takes: its lines and its steps together. -/
def weight (script : List (Step α)) : Nat :=
  script.foldr (fun s n => n + (s.lines.length + 1)) 0

/-! ### Lines shared at an end -/

variable [DecidableEq α]

/-- The number `n` increased by the number of equal pairs at the start of two lists. -/
def sharedFrom (n : Nat) : List α → List α → Nat
  | a :: as, b :: bs => if a = b then sharedFrom (n + 1) as bs else n
  | _, _ => n

/-- The number of lines that two lists share at their start. -/
def sharedPrefix (as bs : List α) : Nat := sharedFrom 0 as bs

/-- The number of lines that two lists share at their end. -/
def sharedSuffix (as bs : List α) : Nat := sharedPrefix as.reverse bs.reverse

theorem sharedFrom_le (n : Nat) (as bs : List α) : sharedFrom n as bs ≤ n + as.length := by
  induction as generalizing n bs with
  | nil => cases bs <;> simp [sharedFrom]
  | cons a as ih =>
    cases bs with
    | nil => simp [sharedFrom]
    | cons b bs =>
      rw [sharedFrom, List.length_cons]
      split
      · have := ih (n + 1) bs
        omega
      · omega

theorem sharedPrefix_le (as bs : List α) : sharedPrefix as bs ≤ as.length := by
  simpa [sharedPrefix] using sharedFrom_le 0 as bs

theorem sharedSuffix_le (as bs : List α) : sharedSuffix as bs ≤ as.length := by
  simpa [sharedSuffix] using sharedPrefix_le as.reverse bs.reverse

end Touchstone.Diff
