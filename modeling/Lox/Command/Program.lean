import Lox.Command.Outcome
import Lox.Lexical.Scan
import Lox.Text.Lines

/-!
# The program

The program takes at most one script and a few flags (`Args`).  Arguments are taken from left to right
and the first one that settles the matter does so, whatever follows: a request for help or the version,
or an argument that cannot be taken.

A script is listed token by token on the output stream, its reports go to the error stream, and
with the debug flag one more line there sums up the scan (`run_script`, `run`).

Without a script the program prompts for one line after another and lists each as a source of its
own (`repl`).  One console serves all lines; after each line it forgets whether there was a report.  The
program stops at the end of the input, at a line `exit`, and at a line that is not UTF-8.
-/

namespace Lox.Command

open Lexical (scanInto)

/-! ### Arguments -/

inductive Request where
  | help
  | version
  | misuse
  | script (name : String) (debug : Bool)
  | interactive (debug : Bool)
  deriving DecidableEq, Repr

structure Options where
  script : Option String := none
  debug : Bool := false
  deriving DecidableEq, Repr

namespace Options

def request (o : Options) : Request :=
  match o.script with
  | some name => .script name o.debug
  | none => .interactive o.debug

def takeScript (o : Options) (name : String) : Except Request Options :=
  match o.script with
  | none => .ok { o with script := some name }
  | some _ => .error .misuse

def takeDebug (o : Options) : Except Request Options :=
  if o.debug then .error .misuse else .ok { o with debug := true }

def takeShort (o : Options) : Char → Except Request Options
  | 'd' => o.takeDebug
  | 'h' => .error .help
  | 'V' => .error .version
  | _ => .error .misuse

def takeLong (o : Options) : String → Except Request Options
  | "--debug" => o.takeDebug
  | "--help" => .error .help
  | "--version" => .error .version
  | _ => .error .misuse

/-- Takes any argument but the two hyphens alone.  A lone hyphen is the name of a script. -/
def take (o : Options) (argument : String) : Except Request Options :=
  match argument.toList with
  | '-' :: '-' :: _ => o.takeLong argument
  | '-' :: c :: cs => (c :: cs).foldlM takeShort o
  | _ => o.takeScript argument

/-- Takes all arguments.  After two hyphens alone, everything is the name of a script. -/
def takeAll (o : Options) : List String → Except Request Options
  | [] => .ok o
  | argument :: rest =>
    if argument == "--" then rest.foldlM takeScript o
    else
      match o.take argument with
      | .ok o => o.takeAll rest
      | .error settled => .error settled

end Options

def Request.ofArguments (arguments : List String) : Request :=
  match ({} : Options).takeAll arguments with
  | .ok options => options.request
  | .error settled => settled

/-! ### Running a script -/

def listing (tokens : List Token) : String :=
  String.join (tokens.map fun t => t.render ++ "\n")

def debugLine (name : String) (tokenCount : Nat) (hadError : Bool) : String :=
  "[debug] " ++ name ++ ": " ++ Nat.repr tokenCount ++ " tokens, errors: "
    ++ (if hadError then "true" else "false") ++ "\n"

/-- Lists a source on a console: what goes to the output stream, and the console after it. -/
def listOn (c : Console) (name : String) (debug : Bool) (source : String) : String × Console :=
  let scanned := scanInto source c
  let c :=
    if debug then
      scanned.2.write (debugLine name scanned.1.length scanned.2.hadError)
    else scanned.2
  (listing scanned.1, c)

def listSource (name : String) (debug : Bool) (source : String) : Outcome :=
  let shown := listOn {} name debug source
  ⟨if shown.2.hadError then .dataError else .success, shown.1, shown.2.stream⟩

def runScript (name : String) (debug : Bool) (content : Except FileError (List UInt8)) : Outcome :=
  match content with
  | .error e => (Failure.unreadable e).outcome "" ""
  | .ok bytes =>
    match Text.decode bytes with
    | .error fault => (Failure.undecodable bytes fault).outcome "" ""
    | .ok source => listSource name debug (String.ofList source)

/-! ### Interactive use -/

def prompt : String := "> "

def typedName : String := "<repl>"

inductive Reply where
  /-- What was listed, and the console at the next prompt. -/
  | listed (shown : String) (c : Console)
  | stop
  | fail (failure : Failure)
  deriving DecidableEq, Repr

/-- The reply to a line as it was typed, with the characters that end it. -/
def reply (debug : Bool) (c : Console) (line : List UInt8) : Reply :=
  match Text.decode line with
  | .error _ => .fail .invalidText
  | .ok characters =>
    let source := String.ofList (Text.trimEnd characters)
    if source == "exit" then .stop
    else
      let shown := listOn c typedName debug source
      .listed shown.1 shown.2.reset

def converse (debug : Bool) (c : Console) : List (List UInt8) → Outcome
  | [] => ⟨.success, prompt, c.stream⟩
  | line :: later =>
    match reply debug c line with
    | .stop => ⟨.success, prompt, c.stream⟩
    | .fail failure => failure.outcome prompt c.stream
    | .listed shown c =>
      let rest := converse debug c later
      { rest with stdout := prompt ++ shown ++ rest.stdout }

def newlineByte : UInt8 := 10

def runInteractive (debug : Bool) (input : List UInt8) : Outcome :=
  converse debug {} (Text.cut newlineByte input)

/-! ### The whole program -/

def versionText : String := "scanlox 0.1.0\n"

def helpText : String :=
  "Scan a Lox script and print its tokens\n"
    ++ "\n"
    ++ "Usage: scanlox [OPTIONS] [SCRIPT]\n"
    ++ "\n"
    ++ "Arguments:\n"
    ++ "  [SCRIPT]  \n"
    ++ "\n"
    ++ "Options:\n"
    ++ "  -d, --debug    \n"
    ++ "  -h, --help     Print help\n"
    ++ "  -V, --version  Print version\n"

def usageText : String := "Usage: scanlox [script]\n"

/-- Runs the program on its arguments, with `read` to read a file and `input` to be typed in. -/
def runProgram (arguments : List String) (read : String → Except FileError (List UInt8))
    (input : List UInt8) : Outcome :=
  match Request.ofArguments arguments with
  | .help => ⟨.success, helpText, ""⟩
  | .version => ⟨.success, versionText, ""⟩
  | .misuse => ⟨.usageError, "", usageText⟩
  | .script name debug => runScript name debug (read name)
  | .interactive debug => runInteractive debug input

end Lox.Command
