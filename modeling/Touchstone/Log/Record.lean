/-!
# Log records

A log record has a level, a target, a message and named values.  It is written on a line of its own,
behind the time at which it was made; control characters that could disturb a terminal are escaped
in the message.

## Main definitions

* `Touchstone.Log.Level` : the level of a record.
* `Touchstone.Log.Record` : a record.
* `Touchstone.Log.Record.text` : a record as it is written.
-/

namespace Touchstone.Log

/-- The level of a record, from the most severe on. -/
inductive Level where
  /-- Something failed. -/
  | error
  /-- Something is suspicious. -/
  | warn
  /-- Something worth knowing. -/
  | info
  /-- A step on the way. -/
  | debug
  /-- The finest detail. -/
  | trace
  deriving DecidableEq, Repr

namespace Level

/-- The rank of a level; a more severe level has a lower rank. -/
def rank : Level → Nat
  | .error => 1
  | .warn => 2
  | .info => 3
  | .debug => 4
  | .trace => 5

/-- The name of a level in five columns. -/
def label : Level → String
  | .error => "ERROR"
  | .warn => " WARN"
  | .info => " INFO"
  | .debug => "DEBUG"
  | .trace => "TRACE"

end Level

/-- A log record. -/
structure Record where
  /-- The level. -/
  level : Level
  /-- The part of the program that the record comes from. -/
  target : String
  /-- The message. -/
  message : String
  /-- The named values, in order. -/
  fields : List (String × String)
  deriving DecidableEq, Repr

/-- The digits of a number below 256 in base sixteen, two of them. -/
def hexPair (n : Nat) : List Char := [Nat.digitChar (n / 16), Nat.digitChar (n % 16)]

/-- A character of a message as it is written.  Bell, backspace, form feed, escape and delete are
escaped by two digits, the control characters from `0x80` to `0x9F` in braces. -/
def escaped (c : Char) : List Char :=
  if [0x07, 0x08, 0x0C, 0x1B, 0x7F].contains c.toNat then '\\' :: 'x' :: hexPair c.toNat
  else if 0x80 ≤ c.toNat ∧ c.toNat ≤ 0x9F then '\\' :: 'u' :: '{' :: hexPair c.toNat ++ ['}']
  else [c]

/-- A record as it is written, up to the line feed at its end. -/
def Record.text (r : Record) : String :=
  r.level.label ++ " " ++ r.target ++ ": " ++ String.ofList (r.message.toList.flatMap escaped) ++
    String.join (r.fields.map fun field => " " ++ field.1 ++ "=" ++ field.2) ++ "\n"

/-- The line of a record, behind its time stamp. -/
def Record.line (stamp : String) (r : Record) : String := stamp ++ " " ++ r.text

end Touchstone.Log
