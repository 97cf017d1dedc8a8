/-!
# Diagnostics

An error that ends a run is reported as a diagnostic: a category, a code and a message.

## Main definitions

* `Touchstone.Category` : the category of an error.
* `Touchstone.Diagnostic` : a diagnostic, with its wordings and its exit code.
-/

namespace Touchstone

/-- The category of an error. -/
inductive Category where
  /-- The request was wrong. -/
  | usage
  /-- A path in the request leads nowhere. -/
  | pathNotFound
  /-- The interpreter failed. -/
  | executorCrash
  /-- The system failed. -/
  | ioSystem
  /-- The runner itself failed. -/
  | internal
  deriving DecidableEq, Repr

/-- The name of a category. -/
def Category.name : Category → String
  | .usage => "UsageError"
  | .pathNotFound => "PathNotFoundError"
  | .executorCrash => "ExecutorCrashError"
  | .ioSystem => "IoSystemError"
  | .internal => "InternalError"

/-- The exit code of a run that ends with an error of a category; it is the same for all. -/
def Category.exitCode : Category → Nat
  | .usage | .pathNotFound | .executorCrash | .ioSystem | .internal => 1

/-- An error as it is reported. -/
structure Diagnostic where
  /-- The category. -/
  category : Category
  /-- The code. -/
  code : String
  /-- The message. -/
  message : String
  deriving DecidableEq, Repr

namespace Diagnostic

/-- The exit code of a run that ends with a diagnostic. -/
def exitCode (d : Diagnostic) : Nat := d.category.exitCode

/-- Every diagnostic has the same exit code. -/
@[simp] theorem exitCode_eq_one (d : Diagnostic) : d.exitCode = 1 := by
  rw [exitCode]
  cases d.category <;> rfl

/-- The line about a diagnostic in the log. -/
def line (d : Diagnostic) : String := "ERROR: [" ++ d.code ++ "] " ++ d.message

/-- A diagnostic in full. -/
def display (d : Diagnostic) : String :=
  d.category.name ++ " [" ++ d.code ++ "] " ++ d.message

end Diagnostic

end Touchstone
