import Touchstone.Glob.Token
import Touchstone.Text.Utf8

/-!
# Nesting of glob patterns

A pattern is matched by way of a regular expression, and the depth of that expression is limited.
The depth counts, one inside the other, repetitions, groups, choices between branches, sequences of
more than one item, and classes with their unions.  A pattern beyond the limit cannot be used.

## Main definitions

* `Touchstone.Glob.nesting` : the depth of a pattern.
* `Touchstone.Glob.nestingLimit` : the greatest depth that can be used.
-/

namespace Touchstone.Glob

/-- The greatest depth of a pattern that can be used. -/
def nestingLimit : Nat := 250

/-- The number of items in a class: a character counts its bytes, a range joins two of them. -/
def classItems (ranges : List (Char × Char)) : Nat :=
  ranges.foldr
    (fun range n =>
      n + if range.1 = range.2 then range.1.utf8Size
        else range.1.utf8Size + range.2.utf8Size - 1)
    0

mutual

/-- The depth of a token. -/
def Token.nesting : Token → Nat
  | .literal _ | .anyByte => 0
  | .anyBytes | .dirsAfter => 1
  | .dirsBefore | .dirsBetween => 4
  | .oneOf _ ranges => if classItems ranges ≤ 1 then 1 else 2
  | .alternates branches =>
    match liveBranches branches with
    | 0 => 0
    | 1 => 1 + deepest branches
    | _ => 2 + deepest branches

/-- The depth of the deepest token in a pattern. -/
def depth : List Token → Nat
  | [] => 0
  | t :: ts => max t.nesting (depth ts)

/-- The depth of the deepest live branch. -/
def deepest : List (List Token) → Nat
  | [] => 0
  | branch :: branches =>
    max (depth branch + if items branch ≤ 1 then 0 else 1) (deepest branches)

/-- The number of live branches. -/
def liveBranches : List (List Token) → Nat
  | [] => 0
  | branch :: branches => (if isLive branch then 1 else 0) + liveBranches branches

/-- The number of items that a pattern puts in sequence. -/
def items : List Token → Nat
  | [] => 0
  | .literal c :: ts => c.utf8Size + items ts
  | .dirsAfter :: ts => 2 + items ts
  | t :: ts => (if t.isLive then 1 else 0) + items ts

end

/-- The depth of a whole pattern, which stands in sequence with the two ends of the name. -/
def nesting (pattern : Pattern) : Nat :=
  match pattern with
  | [.dirsBefore] => 2
  | _ => 1 + depth pattern

end Touchstone.Glob
