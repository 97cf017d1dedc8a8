/-!
# Errors of the operating system

A request to the operating system fails with a numbered error, or before it is made because the
request itself cannot be put.

## Main definitions

* `Touchstone.OsError` : an error.
* `Touchstone.OsError.message` : its wording.
-/

namespace Touchstone

/-- Why a request to the operating system failed. -/
inductive OsError where
  /-- The system refused the request with an error number. -/
  | number (n : Nat)
  /-- A path holds a byte zero, which the system cannot be given. -/
  | zeroByte
  /-- A file that should hold text is not in UTF-8. -/
  | invalidText
  /-- Any other cause, by its wording. -/
  | other (text : String)
  deriving DecidableEq, Repr

namespace OsError

/-- Something on the way does not exist. -/
def notFound : OsError := .number 2

/-- A file may not be used in this way. -/
def permissionDenied : OsError := .number 13

/-- Something exists already. -/
def fileExists : OsError := .number 17

/-- Something on the way is no directory. -/
def notADirectory : OsError := .number 20

/-- A directory stands where a file is wanted. -/
def isADirectory : OsError := .number 21

/-- A name or a path is too long. -/
def nameTooLong : OsError := .number 36

/-- Too many symbolic links were followed. -/
def tooManyLinks : OsError := .number 40

/-- The wordings of the numbered errors. -/
def descriptions : List (Nat × String) :=
  [(1, "Operation not permitted"), (2, "No such file or directory"),
    (4, "Interrupted system call"), (5, "Input/output error"), (9, "Bad file descriptor"),
    (10, "No child processes"), (11, "Resource temporarily unavailable"),
    (12, "Cannot allocate memory"), (13, "Permission denied"), (16, "Device or resource busy"),
    (17, "File exists"), (20, "Not a directory"), (21, "Is a directory"),
    (22, "Invalid argument"), (24, "Too many open files"), (26, "Text file busy"),
    (27, "File too large"), (28, "No space left on device"), (30, "Read-only file system"),
    (32, "Broken pipe"), (36, "File name too long"), (39, "Directory not empty"),
    (40, "Too many levels of symbolic links")]

/-- The wording of an error number. -/
def description (n : Nat) : String :=
  (descriptions.lookup n).getD ("Unknown error " ++ toString n)

/-- The wording of an error. -/
def message : OsError → String
  | .number n => description n ++ " (os error " ++ toString n ++ ")"
  | .zeroByte => "file name contained an unexpected NUL byte"
  | .invalidText => "stream did not contain valid UTF-8"
  | .other text => text

end OsError

end Touchstone
