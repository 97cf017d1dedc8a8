import Touchstone.Glob.Token

/-!
# Reading glob patterns

A pattern is read character by character.  Two things depend on more than the character at hand: a
class in brackets is read as a whole, and two stars in a row mean directories if slashes, the ends
of the pattern or the ends of a branch stand on both sides of them.

## Main definitions

* `Touchstone.Glob.Fault` : what can be wrong with a pattern.
* `Touchstone.Glob.Error` : a pattern with its fault, and the message about it.
* `Touchstone.Glob.parse` : read a pattern.
-/

namespace Touchstone.Glob

/-! ### Faults -/

/-- What can be wrong with a pattern. -/
inductive Fault where
  /-- A class has no closing bracket. -/
  | unclosedClass
  /-- A range in a class ends below its start. -/
  | invalidRange (first last : Char)
  /-- A closing brace closes no group. -/
  | unopenedGroup
  /-- A group has no closing brace. -/
  | unclosedGroup
  /-- The pattern ends in a backslash. -/
  | danglingEscape
  deriving DecidableEq, Repr

/-- The wording of a fault. -/
def Fault.message : Fault → String
  | .unclosedClass => "unclosed character class; missing ']'"
  | .invalidRange first last =>
    "invalid range; '" ++ first.toString ++ "' > '" ++ last.toString ++ "'"
  | .unopenedGroup =>
    "unopened alternate group; missing '\x7b' (maybe escape '\x7d' with '[\x7d]'?)"
  | .unclosedGroup =>
    "unclosed alternate group; missing '\x7d' (maybe escape '\x7b' with '[\x7b]'?)"
  | .danglingEscape => "dangling '\\'"

/-- A pattern that cannot be read. -/
structure Error where
  /-- The text of the pattern. -/
  pattern : String
  /-- What is wrong with it. -/
  fault : Fault
  deriving DecidableEq, Repr

/-- The message about a pattern that cannot be read. -/
def Error.message (e : Error) : String :=
  "error parsing glob '" ++ e.pattern ++ "': " ++ e.fault.message

/-! ### Classes -/

/-- A class that is being read: its ranges with the last one first, and whether a dash has announced
the end of the last range. -/
structure OpenClass where
  /-- The ranges so far, the last one first. -/
  ranges : List (Char × Char)
  /-- The last range waits for its end. -/
  waiting : Bool

namespace OpenClass

/-- Give the last range a new end, which must not lie below its start. -/
def extend (s : OpenClass) (c : Char) : Except Fault OpenClass :=
  match s.ranges with
  | [] => .ok ⟨[(c, c)], false⟩
  | (first, _) :: rest =>
    if c < first then .error (.invalidRange first c) else .ok ⟨(first, c) :: rest, false⟩

/-- Add a single character. -/
def add (s : OpenClass) (c : Char) : OpenClass := ⟨(c, c) :: s.ranges, s.waiting⟩

/-- The ranges in order; a dash that announced a range without an end is a character of its own. -/
def close (s : OpenClass) : List (Char × Char) :=
  (if s.waiting then s.add '-' else s).ranges.reverse

/-- Read the rest of a class up to its closing bracket.  In the first place, where no range has been
read, a closing bracket and a dash are characters. -/
def read (s : OpenClass) : List Char → Except Fault (List (Char × Char) × List Char)
  | [] => .error .unclosedClass
  | c :: rest =>
    if s.ranges.isEmpty then (s.add c).read rest
    else if c = ']' then .ok (s.close, rest)
    else if s.waiting then
      match s.extend c with
      | .error fault => .error fault
      | .ok s => s.read rest
    else if c = '-' then (⟨s.ranges, true⟩ : OpenClass).read rest
    else (s.add c).read rest

theorem read_length_le {s : OpenClass} {text : List Char} {ranges : List (Char × Char)}
    {rest : List Char} (h : s.read text = .ok (ranges, rest)) : rest.length ≤ text.length := by
  induction text generalizing s with
  | nil => simp [read] at h
  | cons c text ih =>
    rw [read] at h
    rw [List.length_cons]
    split at h
    · exact Nat.le_succ_of_le (ih h)
    · split at h
      · simp only [Except.ok.injEq, Prod.mk.injEq] at h
        simp [h.2]
      · split at h
        · split at h
          · simp at h
          · exact Nat.le_succ_of_le (ih h)
        · split at h <;> exact Nat.le_succ_of_le (ih h)

end OpenClass

/-- Read a class after its opening bracket; `!` or `^` in front negates it. -/
def readClass : List Char → Except Fault (Token × List Char)
  | c :: rest =>
    if c = '!' ∨ c = '^' then
      ((⟨[], false⟩ : OpenClass).read rest).map fun r => (.oneOf true r.1, r.2)
    else ((⟨[], false⟩ : OpenClass).read (c :: rest)).map fun r => (.oneOf false r.1, r.2)
  | [] => .error .unclosedClass

theorem readClass_length_le {text : List Char} {t : Token} {rest : List Char}
    (h : readClass text = .ok (t, rest)) : rest.length ≤ text.length := by
  cases text with
  | nil => simp [readClass] at h
  | cons c text =>
    simp only [readClass] at h
    split at h
    all_goals
      rename_i hc
      generalize hr : OpenClass.read _ _ = r at h
      cases r with
      | error fault => simp [Except.map] at h
      | ok r =>
        simp only [Except.map, Except.ok.injEq, Prod.mk.injEq] at h
        have := OpenClass.read_length_le hr
        simp only [List.length_cons] at this ⊢
        rw [← h.2]
        omega

/-! ### Groups -/

/-- The branches of a group that is being read. -/
structure OpenGroup where
  /-- The finished branches, the last one first. -/
  branches : List Pattern
  /-- The tokens of the open branch, the last one first. -/
  tokens : Pattern

/-- A pattern that is being read: the innermost group, and the groups around it from the inside out.
The outermost one stands for the pattern itself. -/
structure OpenPattern where
  /-- The innermost group. -/
  inner : OpenGroup
  /-- The groups around it. -/
  outer : List OpenGroup

namespace OpenPattern

/-- The pattern before its first character. -/
def start : OpenPattern := ⟨⟨[], []⟩, []⟩

/-- Reading is inside a group. -/
def inGroup (s : OpenPattern) : Bool := !s.outer.isEmpty

/-- Add a token to the open branch. -/
def add (s : OpenPattern) (t : Token) : OpenPattern :=
  { s with inner := { s.inner with tokens := t :: s.inner.tokens } }

/-- Open a group. -/
def openGroup (s : OpenPattern) : OpenPattern := ⟨⟨[], []⟩, s.inner :: s.outer⟩

/-- End a branch: a comma inside a group; elsewhere it is a character. -/
def comma (s : OpenPattern) : OpenPattern :=
  if s.inGroup then
    { s with inner := ⟨s.inner.tokens.reverse :: s.inner.branches, []⟩ }
  else s.add (.literal ',')

/-- Close the innermost group. -/
def closeGroup (s : OpenPattern) : Except Fault OpenPattern :=
  match s.outer with
  | [] => .error .unopenedGroup
  | around :: outer =>
    let branches := (s.inner.tokens.reverse :: s.inner.branches).reverse
    .ok (OpenPattern.add ⟨around, outer⟩ (.alternates branches))

/-- The whole pattern, when all its groups are closed. -/
def finish (s : OpenPattern) : Except Fault Pattern :=
  if s.inGroup then .error .unclosedGroup else .ok s.inner.tokens.reverse

/-- Read a character that stands for itself or for any bytes, opens a group or separates branches.
-/
def single (s : OpenPattern) (c : Char) : OpenPattern :=
  match c with
  | '?' => s.add .anyByte
  | '*' => s.add .anyBytes
  | '{' => s.openGroup
  | ',' => s.comma
  | c => s.add (.literal c)

/-! ### Stars -/

/-- Two stars that mean no directories. -/
def addStars (s : OpenPattern) : OpenPattern := (s.add .anyBytes).add .anyBytes

/-- Two stars between directories take the place of the token in front of them, unless that token
already stands for directories on one side. -/
def addDirs (s : OpenPattern) (t : Token) : OpenPattern :=
  match s.inner.tokens with
  | .dirsBefore :: _ | .dirsAfter :: _ => s
  | tokens => { s with inner := { s.inner with tokens := t :: tokens.tail } }

/-- Two stars after the character `before` and in front of `rest`; the slash of directories that
follow is read with them. -/
def stars (s : OpenPattern) (before : Option Char) (rest : List Char) : OpenPattern × List Char :=
  let opens := before = some '/' ∨ (s.inGroup ∧ (before = some ',' ∨ before = some '{'))
  match s.inner.tokens, rest with
  | [], [] => (s.add .dirsBefore, [])
  | [], '/' :: rest => (s.add .dirsBefore, rest)
  | [], rest => (s.addStars, rest)
  | _ :: _, [] => if opens then (s.addDirs .dirsAfter, []) else (s.addStars, [])
  | _ :: _, '/' :: after =>
    if opens then (s.addDirs .dirsBetween, after) else (s.addStars, '/' :: after)
  | _ :: _, c :: after =>
    if opens ∧ s.inGroup ∧ (c = ',' ∨ c = '}') then (s.addDirs .dirsAfter, c :: after)
    else (s.addStars, c :: after)

theorem stars_length_le (s : OpenPattern) (before : Option Char) (rest : List Char) :
    (s.stars before rest).2.length ≤ rest.length := by
  simp only [stars]
  split <;> (try split) <;> simp

end OpenPattern

/-! ### Patterns -/

/-- Read the rest of a pattern after the character `before`. -/
def parseFrom (s : OpenPattern) (before : Option Char) : List Char → Except Fault Pattern
  | [] => s.finish
  | '\\' :: [] => .error .danglingEscape
  | '\\' :: c :: rest => parseFrom (s.add (.literal c)) (some c) rest
  | '*' :: '*' :: rest =>
    let after := (s.stars before rest).2
    let last := if after.length < rest.length then '/' else '*'
    parseFrom (s.stars before rest).1 (some last) after
  | '[' :: rest =>
    match _h : readClass rest with
    | .error fault => .error fault
    | .ok (t, after) => parseFrom (s.add t) (some ']') after
  | '}' :: rest =>
    match s.closeGroup with
    | .error fault => .error fault
    | .ok s => parseFrom s (some '}') rest
  | c :: rest => parseFrom (s.single c) (some c) rest
termination_by text => text.length
decreasing_by
  · simp only [List.length_cons]; omega
  · have := s.stars_length_le before rest
    simp only [List.length_cons]; omega
  · have := readClass_length_le _h
    simp only [List.length_cons]; omega
  · simp only [List.length_cons]; omega
  · simp only [List.length_cons]; omega

/-- Read a pattern. -/
def parse (pattern : String) : Except Error Pattern :=
  match parseFrom .start none pattern.toList with
  | .ok tokens => .ok tokens
  | .error fault => .error ⟨pattern, fault⟩

end Touchstone.Glob
