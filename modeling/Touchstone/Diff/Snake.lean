/-!
# The middle of a shortest edit path

Edit scripts between two lists are paths in a grid: a step right deletes an old line, a step down
inserts a new one, and a diagonal step keeps a line that both share.  The diagonal `k` holds the
points `(x, y)` with `x - y = k`.  Two searches, one from each corner, record for every diagonal how
far `d` deletions and insertions reach.  When they first meet, a point of the path is found at which
the two lists can be split.

The search from the far corner is the same search on the reversed lists.

## Main definitions

* `Touchstone.Diff.Frontier` : how far a search has come on each diagonal.
* `Touchstone.Diff.split?` : a point at which a shortest path can be split.
-/

namespace Touchstone.Diff

/-! ### Frontiers -/

/-- The furthest point of a search on each diagonal, by its distance from the corner along the old
list. -/
structure Frontier where
  /-- The place of the diagonal zero. -/
  centre : Nat
  /-- The furthest points, from the lowest diagonal on. -/
  reach : Array Nat

namespace Frontier

/-- The frontier before the search, with room for the diagonals from `-bound` to `bound`. -/
def start (bound : Nat) : Frontier := ⟨bound, Array.replicate (2 * bound + 1) 0⟩

/-- The furthest point on a diagonal. -/
def get (f : Frontier) (k : Int) : Nat := f.reach.getD (f.centre + k).toNat 0

/-- The frontier with a new furthest point on a diagonal. -/
def set (f : Frontier) (k : Int) (x : Nat) : Frontier :=
  { f with reach := f.reach.setIfInBounds (f.centre + k).toNat x }

/-- Where round `d` enters the diagonal `k`: from above, or from the left if that reaches at least
as far. -/
def entry (f : Frontier) (d : Nat) (k : Int) : Nat :=
  if k = -d ∨ (k ≠ d ∧ f.get (k - 1) < f.get (k + 1)) then f.get (k + 1) else f.get (k - 1) + 1

end Frontier

/-! ### Searching -/

variable {α : Type} [DecidableEq α]

/-- Follow the diagonal from `(x, y)` while both lists have the same line. -/
def follow (old new : Array α) (x y : Nat) : Nat :=
  if h : x < old.size ∧ y < new.size then
    if old[x] = new[y] then follow old new (x + 1) (y + 1) else x
  else x
termination_by old.size - x

/-- The furthest point on the diagonal `k` when it is entered at `x`; a point above the grid is not
followed. -/
def furthest (old new : Array α) (x : Nat) (k : Int) : Nat :=
  if (x : Int) < k then x else follow old new x (x - k).toNat

/-- The search on a pair of lists: the lists, and the lists reversed. -/
structure Grid (α : Type) where
  /-- The old list. -/
  old : Array α
  /-- The new list. -/
  new : Array α
  /-- The old list reversed. -/
  oldBack : Array α
  /-- The new list reversed. -/
  newBack : Array α

/-- The two searches on their way. -/
structure Searches where
  /-- The search from the start of the lists. -/
  ahead : Frontier
  /-- The search from the end of the lists. -/
  behind : Frontier

/-- The diagonal of the far corner. -/
def Grid.skew (g : Grid α) : Int := g.old.size - g.new.size

/-- Round `d` of the search from the start, on the diagonals `2j - d`, `2(j - 1) - d`, … in turn; it
ends with a point where it meets the other search. -/
def Grid.ahead (g : Grid α) (d : Nat) : Nat → Searches → Searches × Option (Int × Int)
  | j, s =>
    let k : Int := 2 * j - d
    let entry := s.ahead.entry d k
    let x := furthest g.old g.new entry k
    let s := { s with ahead := s.ahead.set k x }
    if g.skew % 2 ≠ 0 ∧ (k - g.skew).natAbs < d ∧ g.old.size ≤ x + s.behind.get (g.skew - k) then
      (s, some (entry, entry - k))
    else
      match j with
      | 0 => (s, none)
      | i + 1 => g.ahead d i s

/-- Round `d` of the search from the end, on the diagonals `2j - d`, `2(j - 1) - d`, … in turn; it
ends with a point where it meets the other search. -/
def Grid.behind (g : Grid α) (d : Nat) : Nat → Searches → Searches × Option (Int × Int)
  | j, s =>
    let k : Int := 2 * j - d
    let entry := s.behind.entry d k
    let x := furthest g.oldBack g.newBack entry k
    let s := { s with behind := s.behind.set k x }
    if g.skew % 2 = 0 ∧ (k - g.skew).natAbs ≤ d ∧ g.old.size ≤ x + s.ahead.get (g.skew - k) then
      (s, some (g.old.size - x, g.new.size - (x - k)))
    else
      match j with
      | 0 => (s, none)
      | i + 1 => g.behind d i s

/-- The rounds from `d` on, `rounds` in number, each from the start and then from the end. -/
def Grid.rounds (g : Grid α) (d : Nat) : Nat → Searches → Option (Int × Int)
  | 0, _ => none
  | rounds + 1, s =>
    match g.ahead d d s with
    | (_, some point) => some point
    | (s, none) =>
      match g.behind d d s with
      | (_, some point) => some point
      | (s, none) => g.rounds (d + 1) rounds s

/-- A point at which a shortest path between two lists can be split, if the searches meet.

The point is returned only if it lies in the grid and is none of its two end points. -/
def split? (old new : List α) : Option (Nat × Nat) :=
  let g : Grid α := ⟨old.toArray, new.toArray, old.reverse.toArray, new.reverse.toArray⟩
  let bound := (old.length + new.length + 1) / 2 + 1
  match g.rounds 0 bound ⟨.start bound, .start bound⟩ with
  | some (x, y) =>
    if 0 ≤ x ∧ 0 ≤ y ∧ x ≤ old.length ∧ y ≤ new.length ∧ 0 < x + y ∧
        x + y < old.length + new.length then
      some (x.toNat, y.toNat)
    else none
  | none => none

end Touchstone.Diff
