import Lox.Lexical.Segment
import Lox.Report.Basic

/-!
# Scanning

A scan (`scan_tokens`, `scan_token`) goes through the segments of a source and keeps the number of the
line on which the last one ended.  A lexeme becomes a token, blanks and comments become nothing, and a
foreign character or an open string goes to the sink.  Neither stops the scan.  The token that marks
the end of the source comes last.  The sink has no influence: `scanInto_eq` says that every sink is
sent the reports that `scan` keeps.
-/

namespace Lox.Lexical

/-! ### Lexical errors -/

/-- What can be wrong with a source (`ScanError`): a character that begins no segment, or a string that
is never closed. -/
inductive LexicalError where
  | unexpectedCharacter (c : Char) (line : UInt32)
  | unterminatedString (line : UInt32)
  deriving DecidableEq, Repr

namespace LexicalError

def line : LexicalError → UInt32
  | unexpectedCharacter _ line => line
  | unterminatedString line => line

def message : LexicalError → String
  | unexpectedCharacter c _ => "Unexpected character '" ++ c.toString ++ "'"
  | unterminatedString _ => "Unterminated string"

def report (e : LexicalError) : Report := ⟨e.line, e.message⟩

end LexicalError

/-! ### From a segment to a token -/

/-- The value of a lexeme: of a string what stands between the quotes, of a number the nearest
number, of anything else nothing. -/
def literalOf (kind : Kind) (characters : List Char) : Option Literal :=
  match kind with
  | .string => some (.text (String.ofList (characters.drop 1).dropLast))
  | .number => some (.number (Decimal.ofText characters).round)
  | _ => none

def tokenOf (kind : Kind) (characters : List Char) (line : UInt32) : Token :=
  ⟨kind, String.ofList characters, literalOf kind characters, line⟩

/-- The number of line ends inside a segment. -/
def Segment.lineEnds (s : Segment) : UInt32 := UInt32.ofNat (s.text.count '\n')

/-! ### Going through the segments -/

structure Progress (σ : Type) where
  line : UInt32
  tokens : Array Token
  sink : σ

namespace Progress

variable {σ : Type} [Sink σ]

def start (sink : σ) : Progress σ := ⟨1, #[], sink⟩

def emit (p : Progress σ) (t : Token) : Progress σ := { p with tokens := p.tokens.push t }

def fault (p : Progress σ) (e : LexicalError) : Progress σ :=
  { p with sink := Sink.report p.sink e.report }

/-- Goes past one segment.  The line advances first, so a token or an error bears the line on
which its segment ends. -/
def read (p : Progress σ) (s : Segment) : Progress σ :=
  let p := { p with line := p.line + s.lineEnds }
  match s with
  | .blank _ => p
  | .comment _ => p
  | .lexeme kind characters => p.emit (tokenOf kind characters p.line)
  | .foreign c => p.fault (.unexpectedCharacter c p.line)
  | .openString _ => p.fault (.unterminatedString p.line)

def finish (p : Progress σ) : List Token × σ :=
  ((p.emit (Token.endOfSource p.line)).tokens.toList, p.sink)

end Progress

/-- Scans a source and sends every lexical error to the sink. -/
def scanInto {σ : Type} [Sink σ] (source : String) (sink : σ) : List Token × σ :=
  ((segments source.toList).foldl Progress.read (Progress.start sink)).finish

/-! ### Scanning on its own -/

structure Scan where
  tokens : List Token
  reports : List Report
  deriving Repr

/-- Scans a source and keeps the reports in order. -/
def scan (source : String) : Scan :=
  let outcome := scanInto source ({} : Collector)
  ⟨outcome.1, outcome.2.reports.toList⟩

/-! ### The sink makes no difference -/

namespace Progress

variable {σ : Type} [Sink σ] {initial : σ} {kept : Progress Collector} {p : Progress σ}

/-- Two scans that have come equally far, one with a collector and one with a sink that was
`initial` before: the sink has taken in what the collector holds. -/
structure Agrees (initial : σ) (kept : Progress Collector) (p : Progress σ) : Prop where
  line : p.line = kept.line
  tokens : p.tokens = kept.tokens
  sink : p.sink = kept.sink.reports.toList.foldl Sink.report initial

theorem agrees_start (sink : σ) : Agrees sink (start {}) (start sink) :=
  ⟨rfl, rfl, rfl⟩

theorem agrees_fault (h : Agrees initial kept p) (e : LexicalError) :
    Agrees initial (kept.fault e) (p.fault e) := by
  refine ⟨h.line, h.tokens, ?_⟩
  change Sink.report p.sink e.report = (kept.sink.report e.report).reports.toList.foldl _ initial
  rw [Collector.toList_report, List.foldl_append, h.sink]
  rfl

theorem agrees_read (h : Agrees initial kept p) (s : Segment) :
    Agrees initial (kept.read s) (p.read s) := by
  have advanced : Agrees initial { kept with line := kept.line + s.lineEnds }
      { p with line := p.line + s.lineEnds } :=
    ⟨by rw [h.line], h.tokens, h.sink⟩
  cases s with
  | blank c => exact advanced
  | comment body => exact advanced
  | lexeme kind characters =>
    refine ⟨advanced.line, ?_, h.sink⟩
    simp only [read, emit, h.line, h.tokens]
  | foreign c =>
    have same := agrees_fault advanced
      (.unexpectedCharacter c (kept.line + (Segment.foreign c).lineEnds))
    simpa only [read, h.line] using same
  | openString body =>
    have same := agrees_fault advanced
      (.unterminatedString (kept.line + (Segment.openString body).lineEnds))
    simpa only [read, h.line] using same

theorem agrees_foldl (h : Agrees initial kept p) (segments : List Segment) :
    Agrees initial (segments.foldl read kept) (segments.foldl read p) := by
  induction segments generalizing kept p with
  | nil => exact h
  | cons s rest ih => exact ih (agrees_read h s)

end Progress

/-- Whatever the sink, a scan gives the same tokens and sends it the same reports in order. -/
theorem scanInto_eq {σ : Type} [Sink σ] (source : String) (sink : σ) :
    scanInto source sink
      = ((scan source).tokens, (scan source).reports.foldl Sink.report sink) := by
  have same := Progress.agrees_foldl (Progress.agrees_start sink) (segments source.toList)
  simp only [scan, scanInto, Progress.finish, Progress.emit, same.line, same.tokens, same.sink]

end Lox.Lexical
