import Lox.Command.Program

/-!
# The executable

The outer layer (`main`): reads the script or the input, hands it to the program and passes on what
comes back.  In interactive use each line is answered before the next one is read.
-/

namespace Lox.Command

/-- The number of a system error, which may be given as its negative in 32 bits. -/
def systemNumber (code : UInt32) : Nat := min code.toNat (0 - code).toNat

def fileError? (e : IO.Error) : Option FileError :=
  match e with
  | .noFileOrDirectory _ _ _ => some .notFound
  | .inappropriateType _ code _ =>
    if systemNumber code = FileError.code .notADirectory then some .notADirectory
    else some .isADirectory
  | .invalidArgument _ code _ =>
    if systemNumber code = FileError.code .nameTooLong then some .nameTooLong else none
  | _ => none

def readFile (name : String) : IO (Except FileError (List UInt8)) := do
  try
    return .ok (← IO.FS.readBinFile name).toList
  catch e =>
    match fileError? e with
    | some error => return .error error
    | none => throw e

/-- Reads the bytes up to the next newline and that newline. -/
def readLine (input : IO.FS.Stream) : IO (List UInt8) := do
  let mut line : Array UInt8 := #[]
  repeat
    let next ← input.read 1
    if next.isEmpty then break
    line := line ++ next.data
    if line.back? == some newlineByte then break
  return line.toList

def write (stdout stderr : String) : IO Unit := do
  let out ← IO.getStdout
  out.putStr stdout
  out.flush
  (← IO.getStderr).putStr stderr

def finish (o : Outcome) : IO UInt32 := do
  write o.stdout o.stderr
  return o.status.code.toUInt32

def converseLive (debug : Bool) : IO UInt32 := do
  let input ← IO.getStdin
  let mut console : Console := {}
  repeat
    write prompt ""
    let line ← readLine input
    if line.isEmpty then break
    match reply debug console line with
    | .stop => break
    | .fail failure => return ← finish (failure.outcome "" "")
    | .listed shown after =>
      write shown after.stream
      console := { after with stream := "" }
  return Status.success.code.toUInt32

def run (arguments : List String) : IO UInt32 := do
  match Request.ofArguments arguments with
  | .interactive debug => converseLive debug
  | .script name debug => finish (runScript name debug (← readFile name))
  | _ => finish (runProgram arguments (fun _ => .error .notFound) [])

end Lox.Command

def main (arguments : List String) : IO UInt32 := Lox.Command.run arguments
