/-!
# Glob patterns

A glob pattern is a sequence of tokens.  Literal characters stand for themselves; the other tokens
stand for one byte, for any bytes, for directories along a path, for one byte of a set, or for one
of several patterns.

## Main definitions

* `Touchstone.Glob.Token` : a token.
* `Touchstone.Glob.Pattern` : a pattern.
* `Touchstone.Glob.Token.isLive` : a token that says anything.
-/

namespace Touchstone.Glob

/-- An element of a glob pattern. -/
inductive Token where
  /-- The character itself. -/
  | literal (c : Char)
  /-- `?`, any one byte. -/
  | anyByte
  /-- `*`, any bytes. -/
  | anyBytes
  /-- `**/` at the start, any directories in front of the rest. -/
  | dirsBefore
  /-- `/**` at the end, anything below the directory in front of it. -/
  | dirsAfter
  /-- `/**/` in the middle, any directories between both sides. -/
  | dirsBetween
  /-- `[…]`, any one byte of a set of character ranges or, if `negated`, any one byte outside it. -/
  | oneOf (negated : Bool) (ranges : List (Char × Char))
  /-- A group in braces, one of several patterns. -/
  | alternates (branches : List (List Token))
  deriving Repr, Inhabited

/-- A glob pattern: what its tokens stand for, one after the other. -/
abbrev Pattern := List Token

/-! ### Live tokens

A branch of a group that says nothing is dropped, and a group with no branch left says nothing. -/

mutual

/-- A token is live unless it is a group without a live branch. -/
def Token.isLive : Token → Bool
  | .alternates branches => anyLive branches
  | _ => true

/-- A pattern is live if one of its tokens is. -/
def isLive : List Token → Bool
  | [] => false
  | t :: ts => t.isLive || isLive ts

/-- One of the branches is live. -/
def anyLive : List (List Token) → Bool
  | [] => false
  | branch :: branches => isLive branch || anyLive branches

end

end Touchstone.Glob
