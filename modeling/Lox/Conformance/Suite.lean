import Lox.Command.Directory
import Lox.Command.Program

/-!
# Running a suite

A suite is a directory of annotated scripts.  A script says in its lines what its run should show:
`// expect: ` before a line of output, `// error: ` before a line of the error stream, and `// exit: `
before an exit code.  An annotation may follow anything in its line; of several of one sort in a line
the first counts.

What a script shows is compared with that place by place (`compare`).  A place where the two differ is
one complaint, so a line too many does not shift the places after it.

The scripts are run one by one in the byte order of their names, and each passes if its run shows what
its annotations ask for (the `main` of the runner).  The suite ends early at an entry that is no text.
-/

namespace Lox

/-! ### Decimal digits of all scripts -/

namespace Text

/-- Unicode gives the decimal digits (general category Nd) of each script ten places in a row, from
zero to nine, so the zeros determine all of them.  The table is that of Unicode 16.0. -/
def zeroDigits : List Nat :=
  [0x0030, 0x0660, 0x06F0, 0x07C0, 0x0966, 0x09E6, 0x0A66, 0x0AE6, 0x0B66,
    0x0BE6, 0x0C66, 0x0CE6, 0x0D66, 0x0DE6, 0x0E50, 0x0ED0, 0x0F20, 0x1040,
    0x1090, 0x17E0, 0x1810, 0x1946, 0x19D0, 0x1A80, 0x1A90, 0x1B50, 0x1BB0,
    0x1C40, 0x1C50, 0xA620, 0xA8D0, 0xA900, 0xA9D0, 0xA9F0, 0xAA50, 0xABF0,
    0xFF10, 0x104A0, 0x10D30, 0x10D40, 0x11066, 0x110F0, 0x11136, 0x111D0, 0x112F0,
    0x11450, 0x114D0, 0x11650, 0x116C0, 0x116D0, 0x116DA, 0x11730, 0x118E0, 0x11950,
    0x11BF0, 0x11C50, 0x11D50, 0x11DA0, 0x11F50, 0x16130, 0x16A60, 0x16AC0, 0x16B50,
    0x16D70, 0x1CCF0, 0x1D7CE, 0x1D7D8, 0x1D7E2, 0x1D7EC, 0x1D7F6, 0x1E140, 0x1E2F0,
    0x1E4F0, 0x1E5F1, 0x1E950, 0x1FBF0]

def isDecimalDigit (c : Char) : Bool :=
  zeroDigits.any fun z => z ≤ c.toNat && c.toNat < z + 10

theorem isDecimalDigit_of_isDigit {c : Char} (h : c.isDigit) : isDecimalDigit c := by
  have bounds : 48 ≤ c.toNat ∧ c.toNat ≤ 57 := by
    rw [Char.isDigit, Bool.and_eq_true, decide_eq_true_eq, decide_eq_true_eq] at h
    exact h
  have inRun : (48 ≤ c.toNat && c.toNat < 48 + 10) = true := by
    simp only [Bool.and_eq_true, decide_eq_true_eq]
    omega
  exact List.any_eq_true.mpr ⟨48, List.mem_cons_self, inRun⟩

end Text

namespace Conformance

open Command

/-! ### Annotations -/

def afterMark (mark text : List Char) : Option (List Char) :=
  if mark.isPrefixOf text then some (text.drop mark.length) else none

/-- What `pattern` makes of the first suffix of the text that it matches. -/
def firstMatch {α : Type} (pattern : List Char → Option α) : List Char → Option α
  | [] => pattern []
  | c :: cs =>
    match pattern (c :: cs) with
    | some found => some found
    | none => firstMatch pattern cs

def expectMark : String := "// expect: "

def errorMark : String := "// error: "

def exitMark : String := "// exit: "

def remark? (mark : String) (line : String) : Option String :=
  (firstMatch (afterMark mark.toList) line.toList).map String.ofList

/-- The digits, of any script and at least one, after an exit mark at the start of a text. -/
def exitDigits? (text : List Char) : Option (List Char) :=
  match afterMark exitMark.toList text with
  | none => none
  | some rest =>
    let digits := rest.takeWhile Text.isDecimalDigit
    if digits.isEmpty then none else some digits

def exitRemark? (line : String) : Option (List Char) := firstMatch exitDigits? line.toList

def greatestExit : Nat := 2147483647

/-- The exit code that digits stand for: only ASCII digits do, and no code exceeds the greatest. -/
def exitCode? (digits : List Char) : Option Nat :=
  if digits.all Char.isDigit then
    let code := Nat.ofDigitChars 10 digits 0
    if code ≤ greatestExit then some code else none
  else none

structure Expectation where
  output : List String
  errors : List String
  exit : Nat
  deriving DecidableEq, Repr

/-- Collects the annotations of a script.  The last line with an exit code decides; without one, or
if it stands for no code, the exit code is zero. -/
def expectation (source : String) : Expectation :=
  let lines := Text.lines source
  { output := lines.filterMap (remark? expectMark)
    errors := lines.filterMap (remark? errorMark)
    exit := (((lines.filterMap exitRemark?).getLast?).bind exitCode?).getD 0 }

/-! ### Comparing streams -/

inductive Mismatch where
  | different (expected actual : String)
  | unexpected (actual : String)
  | notFound (expected : String)
  deriving DecidableEq, Repr

def Mismatch.message : Mismatch → String
  | different expected actual => "Expected: " ++ expected ++ ", Actual: " ++ actual
  | unexpected actual => "Unexpected output: " ++ actual
  | notFound expected => "Expected, not found: " ++ expected

def mismatches : List String → List String → List Mismatch
  | [], [] => []
  | want :: expected, [] => .notFound want :: mismatches expected []
  | [], line :: actual => .unexpected line :: mismatches [] actual
  | want :: expected, line :: actual =>
    if want == line then mismatches expected actual
    else .different want line :: mismatches expected actual

inductive Complaint where
  | stream (name : String) (m : Mismatch)
  | exit (expected actual : Nat)
  deriving DecidableEq, Repr

def Complaint.message : Complaint → String
  | stream name m => name ++ ": " ++ m.message
  | exit expected actual =>
    "exit: Expected: " ++ Nat.repr expected ++ ", Actual: Some(" ++ Nat.repr actual ++ ")"

def compareStream (name : String) (expected actual : List String) (made : List Complaint) :
    List Complaint :=
  made ++ (mismatches expected actual).map (.stream name)

theorem mismatches_eq_nil_iff {expected actual : List String} :
    mismatches expected actual = [] ↔ expected = actual := by
  fun_induction mismatches expected actual with
  | case1 => simp
  | case2 => simp
  | case3 => simp
  | case4 want expected line actual same ih => simp [ih, eq_of_beq same]
  | case5 want expected line actual different =>
    have apart : want ≠ line := fun h => different (by simp [h])
    simp [apart]

/-! ### The scripts of a suite -/

def complaints (name source : String) : List Complaint :=
  let wanted := expectation source
  let shown := listSource name false source
  let streams := compareStream "stderr" wanted.errors (Text.lines shown.stderr)
    (compareStream "stdout" wanted.output (Text.lines shown.stdout) [])
  if shown.status.code = wanted.exit then streams
  else streams ++ [.exit wanted.exit shown.status.code]

def announcement (name : String) : String := "Running test: " ++ name ++ " ... "

def verdict (found : List Complaint) : String :=
  if found.isEmpty then "pass!\n"
  else "\x1b[0;31mfail!\x1b[0m\n" ++ String.join (found.map fun c => c.message ++ "\n")

def entryText (e : Entry) : Except Failure String :=
  match e.read with
  | .error error => .error (.unreadable error)
  | .ok bytes =>
    match Text.decode bytes with
    | .error _ => .error .invalidText
    | .ok characters => .ok (String.ofList characters)

/-- Goes on with the entries that are left; `failed` tells whether a script has failed before. -/
def runEntries (failed : Bool) : List (String × Entry) → Outcome
  | [] => ⟨if failed then .failure else .success, "", ""⟩
  | (name, entry) :: later =>
    match entryText entry with
    | .error failure => failure.outcome (announcement name) ""
    | .ok source =>
      let found := complaints name source
      let rest := runEntries (failed || !found.isEmpty) later
      { rest with stdout := announcement name ++ verdict found ++ rest.stdout }

def bytesLE (a b : String) : Bool := a.toUTF8.data.toList ≤ b.toUTF8.data.toList

def inOrder (d : Directory) : List (String × Entry) :=
  d.entries.mergeSort fun a b => bytesLE a.1 b.1

/-- Runs the suite in a directory, if there is one. -/
def runSuite : Option Directory → Outcome
  | none => (Failure.unreadable .notFound).outcome "" ""
  | some d => runEntries false (inOrder d)

end Conformance

end Lox
