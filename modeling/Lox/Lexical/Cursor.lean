import Lox.Lexical.Scan

/-!
# A cursor over the bytes of a source

The same scan told in small steps, as `scan_token` takes them.  A cursor (`Scanner`) holds two byte
offsets into the source and goes over it one character at a time, with at most two characters of
lookahead and a null character standing for the end.  Nothing keeps the offsets in range except the
tests that the steps make, so every operation that needs more than they say is checked here and ends
the run with a `Fault`.
-/

namespace Lox.Lexical

/-! ### Byte offsets -/

def byteLength : List Char → Nat
  | [] => 0
  | c :: cs => c.utf8Size + byteLength cs

/-- What stands before and after a byte offset, which must lie on a boundary between characters. -/
def splitByte : Nat → List Char → Option (List Char × List Char)
  | 0, cs => some ([], cs)
  | _ + 1, [] => none
  | n + 1, c :: cs =>
    if c.utf8Size ≤ n + 1 then
      (splitByte (n + 1 - c.utf8Size) cs).map fun parts => (c :: parts.1, parts.2)
    else none

@[simp] theorem byteLength_nil : byteLength [] = 0 := rfl

@[simp] theorem byteLength_cons (c : Char) (cs : List Char) :
    byteLength (c :: cs) = c.utf8Size + byteLength cs := rfl

@[simp] theorem byteLength_append (cs ds : List Char) :
    byteLength (cs ++ ds) = byteLength cs + byteLength ds := by
  induction cs with
  | nil => simp
  | cons c cs ih => simp only [List.cons_append, byteLength_cons, ih, Nat.add_assoc]

theorem byteLength_ofList (cs : List Char) : (String.ofList cs).utf8ByteSize = byteLength cs := by
  induction cs with
  | nil => rfl
  | cons c cs ih =>
    rw [String.ofList_cons, String.utf8ByteSize_append, String.utf8ByteSize_singleton, ih,
      byteLength_cons]

theorem byteLength_toList (source : String) : byteLength source.toList = source.utf8ByteSize := by
  rw [← byteLength_ofList, String.ofList_toList]

theorem splitByte_append (before after : List Char) :
    splitByte (byteLength before) (before ++ after) = some (before, after) := by
  induction before with
  | nil => simp [splitByte]
  | cons c cs ih =>
    have positive := c.utf8Size_pos
    obtain ⟨n, hn⟩ : ∃ n, c.utf8Size + byteLength cs = n + 1 :=
      ⟨c.utf8Size + byteLength cs - 1, by omega⟩
    have fits : c.utf8Size ≤ n + 1 := by omega
    have remains : n + 1 - c.utf8Size = byteLength cs := by omega
    rw [byteLength_cons, hn, List.cons_append, splitByte, if_pos fits, remains, ih]
    rfl

/-! ### Faults -/

inductive Fault where
  /-- An offset past the end or inside a character. -/
  | offset (n : Nat)
  | range (a b : Nat)
  /-- A character was taken where none is left. -/
  | pastEnd
  /-- A numeral that is not digits, with or without a point and more digits. -/
  | numeral (text : List Char)
  | lineOverflow
  deriving DecidableEq, Repr

def slice (source : String) (a b : Nat) : Except Fault (List Char) :=
  if a ≤ b then
    match splitByte a source.toList with
    | none => .error (.range a b)
    | some (_, after) =>
      match splitByte (b - a) after with
      | none => .error (.range a b)
      | some (text, _) => .ok text
  else .error (.range a b)

theorem slice_eq {source : String} {before text after : List Char}
    (h : source.toList = before ++ (text ++ after)) :
    slice source (byteLength before) (byteLength (before ++ text)) = .ok text := by
  have length : byteLength (before ++ text) - byteLength before = byteLength text := by simp
  have le : byteLength before ≤ byteLength (before ++ text) := by simp
  simp only [slice, if_pos le, h, splitByte_append, length]

/-- Digits, or digits around a point. -/
def isNumeral (text : List Char) : Bool :=
  !(text.takeWhile Char.isDigit).isEmpty &&
    match text.dropWhile Char.isDigit with
    | [] => true
    | c :: fraction => c == '.' && !fraction.isEmpty && fraction.all Char.isDigit

def readNumber (text : List Char) : Except Fault Binary64 :=
  if isNumeral text then .ok (Decimal.ofText text).round else .error (.numeral text)

@[simp] theorem ok_bind {ε α β : Type} (a : α) (f : α → Except ε β) : (.ok a >>= f) = f a := rfl

@[simp] theorem pure_eq_ok {ε α : Type} (a : α) : (pure a : Except ε α) = .ok a := rfl

/-! ### The cursor -/

/-- How far the reading of a segment has come. -/
inductive Point where
  | between
  /-- The first character of a segment has been taken, nothing has been decided. -/
  | begun (c : Char)
  | comment
  | string
  | closed
  | whole
  | fraction
  | numeral
  | word
  | done
  deriving DecidableEq, Repr

structure Cursor (σ : Type) where
  point : Point
  start : Nat
  current : Nat
  progress : Progress σ

namespace Cursor

variable {σ : Type} [Sink σ] (source : String) (s : Cursor σ)

/-! ### Looking ahead and taking a character -/

def atEnd : Bool := decide (source.utf8ByteSize ≤ s.current)

def ahead : Except Fault (List Char) :=
  match splitByte s.current source.toList with
  | none => .error (.offset s.current)
  | some (_, after) => .ok after

def peek : Except Fault Char := do
  let cs ← s.ahead source
  return cs.headD '\x00'

def peekNext : Except Fault Char := do
  let cs ← s.ahead source
  return cs.tail.headD '\x00'

def next : Except Fault (Char × Cursor σ) := do
  if s.atEnd source then
    throw .pastEnd
  else
    let c ← s.peek source
    return (c, { s with current := s.current + c.utf8Size })

def takeIf (expected : Char) : Except Fault (Bool × Cursor σ) := do
  if s.atEnd source then
    return (false, s)
  else if (← s.peek source) ≠ expected then
    return (false, s)
  else
    return (true, { s with current := s.current + expected.utf8Size })

/-! ### Ending a segment -/

def goTo (point : Point) : Cursor σ := { s with point := point }

def newLine : Except Fault (Cursor σ) :=
  if s.progress.line.toNat + 1 < UInt32.size then
    .ok { s with progress := { s.progress with line := s.progress.line + 1 } }
  else .error .lineOverflow

def add (kind : Kind) (literal : Option Literal) : Except Fault (Cursor σ) := do
  let text ← slice source s.start s.current
  let token := ⟨kind, String.ofList text, literal, s.progress.line⟩
  return { s with point := .between, progress := s.progress.emit token }

def complain (e : LexicalError) : Cursor σ :=
  { s with point := .between, progress := s.progress.fault e }

/-! ### One step -/

def dispatch (c : Char) : Except Fault (Cursor σ) :=
  match classify c with
  | .blank => if c = '\n' then (s.goTo .between).newLine else .ok (s.goTo .between)
  | .digit => .ok (s.goTo .whole)
  | .letter => .ok (s.goTo .word)
  | .quote => .ok (s.goTo .string)
  | .slash => do
    let (second, s') ← s.takeIf source '/'
    if second then return s'.goTo .comment else s'.add source .slash none
  | .operator alone withEqual => do
    let (second, s') ← s.takeIf source '='
    if second then s'.add source withEqual none else s'.add source alone none
  | .punctuator kind => s.add source kind none
  | .foreign => .ok (s.complain (.unexpectedCharacter c s.progress.line))

def step : Except Fault (Cursor σ) :=
  match s.point with
  | .between => do
    if s.atEnd source then
      let mark := Token.endOfSource s.progress.line
      return { s with point := .done, progress := s.progress.emit mark }
    else
      let (c, s') ← next source { s with start := s.current }
      return s'.goTo (.begun c)
  | .begun c => s.dispatch source c
  | .comment => do
    if (← s.peek source) ≠ '\n' ∧ !s.atEnd source then
      let (_, s') ← s.next source
      return s'
    else
      return s.goTo .between
  | .string => do
    if (← s.peek source) ≠ '"' ∧ !s.atEnd source then
      let (c, s') ← s.next source
      if c = '\n' then s'.newLine else return s'
    else if s.atEnd source then
      return s.complain (.unterminatedString s.progress.line)
    else
      let (_, s') ← s.next source
      return s'.goTo .closed
  | .closed => do
    let text ← slice source (s.start + 1) (s.current - 1)
    s.add source .string (some (.text (String.ofList text)))
  | .whole => do
    if (← s.peek source).isDigit then
      let (_, s') ← s.next source
      return s'
    else if (← s.peek source) = '.' then
      if (← s.peekNext source).isDigit then
        let (_, s') ← s.next source
        return s'.goTo .fraction
      else
        return s.goTo .numeral
    else
      return s.goTo .numeral
  | .fraction => do
    if (← s.peek source).isDigit then
      let (_, s') ← s.next source
      return s'
    else
      return s.goTo .numeral
  | .numeral => do
    let text ← slice source s.start s.current
    let value ← readNumber text
    s.add source .number (some (.number value))
  | .word => do
    if isWordChar (← s.peek source) then
      let (_, s') ← s.next source
      return s'
    else
      let text ← slice source s.start s.current
      s.add source (Kind.ofWord (String.ofList text)) none
  | .done => .ok s

/-! ### A run -/

def initial (sink : σ) : Cursor σ := ⟨.between, 0, 0, Progress.start sink⟩

/-- The cursor after some number of steps. -/
def run (sink : σ) : Nat → Except Fault (Cursor σ)
  | 0 => .ok (initial sink)
  | n + 1 => do step source (← run sink n)

end Cursor

end Lox.Lexical
