import Touchstone.Glob.Token
import Touchstone.Text.Utf8

/-!
# Matching names against glob patterns

A pattern matches a whole name, byte by byte.  While its tokens are taken in turn, the matcher keeps
the places of the name that they can have reached: a list with one entry for each place, from the
start of the name to its end.

## Main definitions

* `Touchstone.Glob.Reached` : the places that can have been reached.
* `Touchstone.Glob.advance` : the places that a pattern reaches from given ones.
* `Touchstone.Glob.matchesName` : a pattern matches a name.
-/

namespace Touchstone.Glob

/-- The places of a name that can have been reached; place `i` lies in front of byte `i`. -/
abbrev Reached := List Bool

namespace Reached

/-- Only the first place of a name of the given length. -/
def start (length : Nat) : Reached := true :: List.replicate length false

/-- The places reached by one more byte, which has to satisfy `p`. -/
def byte (name : List UInt8) (p : UInt8 → Bool) (r : Reached) : Reached :=
  false :: List.zipWith (fun b here => here && p b) name r

/-- The places reached by any further bytes, when a place in front is reached if `before`. -/
def anyFrom (before : Bool) : Reached → Reached
  | [] => []
  | here :: rest => (before || here) :: anyFrom (before || here) rest

/-- The places reached by any further bytes. -/
def any (r : Reached) : Reached := anyFrom false r

/-- The places reached in one of two ways. -/
def either (r s : Reached) : Reached := List.zipWith (· || ·) r s

/-- The places reached by a slash. -/
def slash (name : List UInt8) (r : Reached) : Reached := r.byte name (· == '/'.toUInt8)

/-- The last place is reached. -/
def atEnd (r : Reached) : Bool := r.getLast?.getD false

end Reached

/-! ### Byte sets -/

/-- The ranges of bytes that a range of characters stands for.

A class is a set of bytes.  A single character contributes the bytes of its UTF-8 form.  A range
contributes the bytes of its two ends, but those that meet, the last byte of the first end and the
first byte of the last end, are joined to a range. -/
def byteRanges (range : Char × Char) : List (UInt8 × UInt8) :=
  let first := String.utf8EncodeChar range.1
  let last := String.utf8EncodeChar range.2
  let single := fun b : UInt8 => (b, b)
  if range.1 = range.2 then first.map single
  else
    first.dropLast.map single ++ [(first.getLast?.getD 0, last.head?.getD 0)] ++
      last.tail.map single

/-- A byte belongs to a class. -/
def inClass (negated : Bool) (ranges : List (Char × Char)) (b : UInt8) : Bool :=
  negated != (ranges.flatMap byteRanges).any fun range => range.1 ≤ b && b ≤ range.2

/-! ### Patterns -/

mutual

/-- The places that a token reaches from given ones. -/
def Token.advance (name : List UInt8) : Token → Reached → Reached
  | .literal c, r => (String.utf8EncodeChar c).foldl (fun r b => r.byte name (· == b)) r
  | .anyByte, r => r.byte name fun _ => true
  | .anyBytes, r => r.any
  | .dirsBefore, r => r.either (r.any.slash name)
  | .dirsAfter, r => (r.slash name).any
  | .dirsBetween, r => (r.slash name).either ((r.slash name).any.slash name)
  | .oneOf negated ranges, r => r.byte name (inClass negated ranges)
  | .alternates branches, r => (advanceAny name branches r).getD r

/-- The places that a pattern reaches from given ones. -/
def advance (name : List UInt8) : List Token → Reached → Reached
  | [], r => r
  | t :: ts, r => advance name ts (t.advance name r)

/-- The places that the live branches reach from given ones, if there are live branches. -/
def advanceAny (name : List UInt8) : List (List Token) → Reached → Option Reached
  | [], _ => none
  | branch :: branches, r =>
    match isLive branch, advanceAny name branches r with
    | true, some s => some ((advance name branch r).either s)
    | true, none => some (advance name branch r)
    | false, s => s

end

/-- A pattern matches a whole name.  A pattern of directories in front of nothing matches every
name. -/
def matchesName (pattern : Pattern) (name : List UInt8) : Bool :=
  match pattern with
  | [.dirsBefore] => true
  | _ => (advance name pattern (.start name.length)).atEnd

end Touchstone.Glob
