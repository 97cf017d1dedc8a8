import Touchstone.Log.Record

/-!
# Selecting log records

A setting selects the records that are written.  It is a list of directives, separated by commas.  A
directive names a level, a target and a level, or a target alone; it is about the targets that begin
with its own, and lets the records of its level and of all more severe levels pass.  Of the
directives about a target the one with the longest target decides, and of several such the last.

Without a setting, and with one that cannot be read, records of level debug and above are written.

## Main definitions

* `Touchstone.Log.Directive` : a directive.
* `Touchstone.Log.Selection` : the directives of a setting.
* `Touchstone.Log.Selection.ofSetting` : read a setting.
* `Touchstone.Log.Selection.passes` : a record is written.
-/

namespace Touchstone.Log

/-- A directive about the records of some targets. -/
structure Directive where
  /-- The start of the targets that it is about; without one it is about all. -/
  target : Option String
  /-- The greatest rank that it lets pass. -/
  rank : Nat
  deriving DecidableEq, Repr

/-- The directives of a setting. -/
abbrev Selection := List Directive

/-! ### Reading settings -/

/-- The greatest rank of a level. -/
def allRanks : Nat := Level.trace.rank

/-- The words for ranks; `off` lets nothing pass. -/
def rankWords : List (String × Nat) :=
  [("off", 0), ("error", 1), ("warn", 2), ("info", 3), ("debug", 4), ("trace", 5)]

/-- The rank that a text names by its word, in capitals or not, or by its number. -/
def rank? (text : String) : Option Nat :=
  match rankWords.lookup (String.ofList (text.toList.map Char.toLower)) with
  | some rank => some rank
  | none =>
    let digits := if text.toList.head? = some '+' then text.toList.tail else text.toList
    if digits.isEmpty ∨ ¬digits.all Char.isDigit then none
    else
      let n := digits.foldl (fun n c => 10 * n + (c.toNat - '0'.toNat)) 0
      if n ≤ allRanks then some n else none

/-- Read a directive.  A target without a level, or with an empty one, lets all levels pass. -/
def Directive.read? (text : String) : Option Directive :=
  let chars := text.toList
  let target := chars.takeWhile (· ≠ '=')
  let starts := chars.head?.any fun c => c.isAlphanum || ['-', ':', '_'].contains c
  if !starts then none
  else
    match chars.dropWhile (· ≠ '=') with
    | [] =>
      match rank? text with
      | some rank => some ⟨none, rank⟩
      | none => some ⟨some text, allRanks⟩
    | [_] => some ⟨some (String.ofList target), allRanks⟩
    | _ :: level =>
      (rank? (String.ofList level)).map fun rank => ⟨some (String.ofList target), rank⟩

/-- The parts of a text between commas. -/
def splitCommas : List Char → List (List Char)
  | [] => [[]]
  | c :: rest =>
    if c = ',' then [] :: splitCommas rest
    else
      match splitCommas rest with
      | [] => [[c]]
      | part :: parts => (c :: part) :: parts

namespace Selection

/-- The selection without a setting. -/
def default : Selection := [⟨none, Level.debug.rank⟩]

/-- Read the directives of a setting; empty ones are passed over. -/
def read? (text : String) : Option Selection :=
  ((splitCommas text.toList).filter (!·.isEmpty)).mapM fun part =>
    Directive.read? (String.ofList part)

/-- The selection of an optional setting. -/
def ofSetting (setting : Option String) : Selection :=
  (setting.bind read?).getD default

/-! ### Selecting records -/

end Selection

/-- A directive is about a target. -/
def Directive.concerns (d : Directive) (target : String) : Bool :=
  match d.target with
  | none => true
  | some start => start.toList.isPrefixOf target.toList

/-- The length of the target of a directive; a directive about all targets comes below every other.
-/
def Directive.precision (d : Directive) : Nat :=
  match d.target with
  | none => 0
  | some start => start.length + 1

namespace Selection

/-- The directive that decides about a target. -/
def decisive? (s : Selection) (target : String) : Option Directive :=
  (s.filter (·.concerns target)).foldl
    (fun best d =>
      match best with
      | some b => if d.precision < b.precision then some b else some d
      | none => some d)
    none

/-- A record is written. -/
def passes (s : Selection) (r : Record) : Bool :=
  match s.decisive? r.target with
  | some d => r.level.rank ≤ d.rank
  | none => false

end Selection

end Touchstone.Log
