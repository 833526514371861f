import Lox.Text.Utf8

/-!
# Outcomes of a run

What a run of a program (`main`) leaves behind: an exit status and what it wrote to its two streams.
Here are also the failures that end a run early, with the line that each one leaves on the error stream.
-/

namespace Lox.Command

inductive Status where
  | success
  | failure
  | usageError
  | dataError
  deriving DecidableEq, Repr

def Status.code : Status → Nat
  | success => 0
  | failure => 1
  | usageError => 64
  | dataError => 65

structure Outcome where
  status : Status
  stdout : String
  stderr : String
  deriving DecidableEq, Repr

inductive FileError where
  | notFound
  | notADirectory
  | isADirectory
  | nameTooLong
  deriving DecidableEq, Repr

namespace FileError

/-- The number by which an operating system knows the error. -/
def code : FileError → Nat
  | notFound => 2
  | notADirectory => 20
  | isADirectory => 21
  | nameTooLong => 36

def name : FileError → String
  | notFound => "NotFound"
  | notADirectory => "NotADirectory"
  | isADirectory => "IsADirectory"
  | nameTooLong => "InvalidFilename"

def message : FileError → String
  | notFound => "No such file or directory"
  | notADirectory => "Not a directory"
  | isADirectory => "Is a directory"
  | nameTooLong => "File name too long"

end FileError

inductive Failure where
  | unreadable (error : FileError)
  | undecodable (bytes : List UInt8) (fault : Text.Utf8Fault)
  | invalidText
  deriving DecidableEq, Repr

namespace Failure

def faultLength : Text.HeadFault → String
  | .incomplete => "None"
  | .malformed length => "Some(" ++ Nat.repr length ++ ")"

def message : Failure → String
  | unreadable error =>
    "Os \x7b code: " ++ Nat.repr error.code ++ ", kind: " ++ error.name
      ++ ", message: \"" ++ error.message ++ "\" \x7d"
  | undecodable bytes fault =>
    "FromUtf8Error \x7b bytes: ["
      ++ ", ".intercalate (bytes.map fun b => Nat.repr b.toNat)
      ++ "], error: Utf8Error \x7b valid_up_to: " ++ Nat.repr fault.validUpTo
      ++ ", error_len: " ++ faultLength fault.head ++ " \x7d \x7d"
  | invalidText =>
    "Error \x7b kind: InvalidData, message: \"stream did not contain valid UTF-8\" \x7d"

/-- The outcome of a run that has written `stdout` and `stderr` when it fails. -/
def outcome (f : Failure) (stdout stderr : String) : Outcome :=
  ⟨.failure, stdout, stderr ++ "Error: " ++ f.message ++ "\n"⟩

end Failure

end Lox.Command
