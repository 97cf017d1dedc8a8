import Touchstone.Duration
import Touchstone.Number.Literal

/-!
# Time limits

A time limit is given as a decimal number of seconds.  It has to be finite and positive as a binary
number, and its seconds have to fit into 64 bits.

## Main definitions

* `Touchstone.Timeout.Fault` : why a text is no time limit.
* `Touchstone.Timeout.parse` : read a time limit.
-/

namespace Touchstone.Timeout

/-- Why a text is no time limit. -/
inductive Fault where
  /-- The text is not a number. -/
  | notANumber (text : String)
  /-- The number is not finite and positive. -/
  | notPositive (text : String)
  /-- The number is too great. -/
  | tooGreat
  deriving DecidableEq, Repr

/-- The wording of a fault. -/
def Fault.message : Fault → String
  | .notANumber text => "'" ++ text ++ "' is not a number of seconds"
  | .notPositive text => "timeout must be a positive number of seconds, got '" ++ text ++ "'"
  | .tooGreat => "cannot convert float seconds to Duration: value is either too big or NaN"

/-- Read a time limit. -/
def parse (text : String) : Except Fault Duration :=
  match Number.read? text.toList with
  | none => .error (.notANumber text)
  | some .special => .error (.notPositive text)
  | some (.finite literal) =>
    match literal.magnitude? with
    | none => .error (.notPositive text)
    | some units =>
      if literal.negative ∨ units = 0 then .error (.notPositive text)
      else
        match Duration.ofUnits? units with
        | none => .error .tooGreat
        | some limit => .ok limit

end Touchstone.Timeout
