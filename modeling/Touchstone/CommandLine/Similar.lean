/-!
# Similar names

Two names are compared by the characters that they share near the same place.  A character of the
first name is paired with the first free equal character of the second one that is not too far away.
The similarity is the mean of three shares: of paired characters in each name, and of pairs that are
not out of order.

## Main definitions

* `Touchstone.CommandLine.similarity` : the similarity of two names.
* `Touchstone.CommandLine.mostSimilar?` : the most similar of several names.
-/

namespace Touchstone.CommandLine

/-- Mark the first free character `c` at one of the places `lo`, …, `hi - 1`, counted from `here`.
-/
def mark (c : Char) (lo hi : Nat) (here : Nat) : List (Char × Bool) → Option (List (Char × Bool))
  | [] => none
  | (d, taken) :: rest =>
    if lo ≤ here ∧ here < hi ∧ c = d ∧ ¬taken then some ((d, true) :: rest)
    else (mark c lo hi (here + 1) rest).map ((d, taken) :: ·)

/-- Pair the characters of the first name from the place `here` on, at most `range` places away: the
paired characters of the first name, and the second name with marks. -/
def pairUp (range here : Nat) : List Char → List (Char × Bool) → List Char × List (Char × Bool)
  | [], marks => ([], marks)
  | c :: rest, marks =>
    match mark c (here - range) (here + range + 1) 0 marks with
    | none => pairUp range (here + 1) rest marks
    | some marks =>
      let later := pairUp range (here + 1) rest marks
      (c :: later.1, later.2)

/-- The similarity of two names, between zero and one. -/
def similarity (a b : String) : Float :=
  let range := max a.length b.length / 2 - 1
  let paired := pairUp range 0 a.toList (b.toList.map (·, false))
  let matching := paired.1.length
  let facing := (paired.2.filter (·.2)).map Prod.fst
  let misplaced := (paired.1.zip facing).countP (fun p => p.1 ≠ p.2) / 2
  if matching = 0 then 0
  else
    (matching.toFloat / a.length.toFloat + matching.toFloat / b.length.toFloat +
      (matching - misplaced).toFloat / matching.toFloat) / 3

/-- The most similar of several names, if it is similar enough; of equally similar ones the last. -/
def mostSimilar? (text : String) (names : List String) : Option String :=
  (names.foldl
    (fun best name =>
      let s := similarity text name
      if s > 0.7 then
        match best with
        | some (top, other) => if top > s then some (top, other) else some (s, name)
        | none => some (s, name)
      else best)
    (none : Option (Float × String))).map Prod.snd

end Touchstone.CommandLine
