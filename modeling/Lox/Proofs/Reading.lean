import Lox.Lexical.Scan
import Lox.Proofs.Boundary

/-!
# What a scan makes of the segments

A scan folds `Progress.read` over the segments.  Here the fold is taken apart into three lists that
can be reasoned about one at a time: the line reached, the tokens and the reports.  Each of them is
cut where the list of segments is cut, and a later start only raises the lines.
-/

namespace Lox.Lexical

namespace Segment

def token? (line : UInt32) : Segment → Option Token
  | lexeme kind characters => some (tokenOf kind characters line)
  | _ => none

def report? (line : UInt32) : Segment → Option Report
  | foreign c => some (LexicalError.unexpectedCharacter c line).report
  | openString _ => some (LexicalError.unterminatedString line).report
  | _ => none

end Segment

def lineAfter (line : UInt32) : List Segment → UInt32
  | [] => line
  | s :: rest => lineAfter (line + s.lineEnds) rest

def tokensFrom (line : UInt32) : List Segment → List Token
  | [] => []
  | s :: rest => (s.token? (line + s.lineEnds)).toList ++ tokensFrom (line + s.lineEnds) rest

def reportsFrom (line : UInt32) : List Segment → List Report
  | [] => []
  | s :: rest => (s.report? (line + s.lineEnds)).toList ++ reportsFrom (line + s.lineEnds) rest

/-! ### The fold -/

namespace Progress

variable {σ : Type} [Sink σ]

theorem line_read (p : Progress σ) (s : Segment) : (p.read s).line = p.line + s.lineEnds := by
  cases s <;> rfl

theorem tokens_read (p : Progress σ) (s : Segment) :
    (p.read s).tokens.toList = p.tokens.toList ++ (s.token? (p.line + s.lineEnds)).toList := by
  cases s <;> simp [read, emit, fault, Segment.token?]

theorem sink_read (p : Progress σ) (s : Segment) :
    (p.read s).sink = (s.report? (p.line + s.lineEnds)).toList.foldl Sink.report p.sink := by
  cases s <;> rfl

theorem line_foldl_read (ss : List Segment) (p : Progress σ) :
    (ss.foldl read p).line = lineAfter p.line ss := by
  induction ss generalizing p with
  | nil => rfl
  | cons s rest ih =>
    show (rest.foldl read (p.read s)).line = lineAfter (p.line + s.lineEnds) rest
    rw [ih, line_read]

theorem tokens_foldl_read (ss : List Segment) (p : Progress σ) :
    (ss.foldl read p).tokens.toList = p.tokens.toList ++ tokensFrom p.line ss := by
  induction ss generalizing p with
  | nil => simp [tokensFrom]
  | cons s rest ih =>
    have here := tokens_read p s
    have later := ih (p.read s)
    rw [line_read, here, List.append_assoc] at later
    exact later

theorem sink_foldl_read (ss : List Segment) (p : Progress σ) :
    (ss.foldl read p).sink = (reportsFrom p.line ss).foldl Sink.report p.sink := by
  induction ss generalizing p with
  | nil => rfl
  | cons s rest ih =>
    have here := sink_read p s
    have later := ih (p.read s)
    rw [line_read, here, ← List.foldl_append] at later
    exact later

end Progress

theorem toList_foldl_report (reports : List Report) (c : Collector) :
    (reports.foldl Sink.report c).reports.toList = c.reports.toList ++ reports := by
  induction reports generalizing c with
  | nil => simp
  | cons r rest ih =>
    have here : (Sink.report c r).reports.toList = c.reports.toList ++ [r] :=
      Collector.toList_report c r
    rw [List.foldl_cons, ih, here, List.append_assoc]
    rfl

theorem scan_tokens (source : String) :
    (scan source).tokens = tokensFrom 1 (segments source.toList)
      ++ [Token.endOfSource (lineAfter 1 (segments source.toList))] := by
  have tokens := Progress.tokens_foldl_read (segments source.toList) (Progress.start ({} : Collector))
  have line := Progress.line_foldl_read (segments source.toList) (Progress.start ({} : Collector))
  simp only [scan, scanInto, Progress.finish, Progress.emit, Array.toList_push, tokens, line]
  rfl

theorem scan_reports (source : String) :
    (scan source).reports = reportsFrom 1 (segments source.toList) := by
  have sink := Progress.sink_foldl_read (segments source.toList) (Progress.start ({} : Collector))
  simp only [scan, scanInto, Progress.finish, Progress.emit, sink, toList_foldl_report]
  rfl

/-! ### Cutting the list of segments -/

theorem lineAfter_append (line : UInt32) (before after : List Segment) :
    lineAfter line (before ++ after) = lineAfter (lineAfter line before) after := by
  induction before generalizing line with
  | nil => rfl
  | cons s rest ih => exact ih _

theorem tokensFrom_append (line : UInt32) (before after : List Segment) :
    tokensFrom line (before ++ after)
      = tokensFrom line before ++ tokensFrom (lineAfter line before) after := by
  induction before generalizing line with
  | nil => rfl
  | cons s rest ih =>
    have later := ih (line + s.lineEnds)
    simp only [List.cons_append, tokensFrom, lineAfter, later, List.append_assoc]

theorem reportsFrom_append (line : UInt32) (before after : List Segment) :
    reportsFrom line (before ++ after)
      = reportsFrom line before ++ reportsFrom (lineAfter line before) after := by
  induction before generalizing line with
  | nil => rfl
  | cons s rest ih =>
    have later := ih (line + s.lineEnds)
    simp only [List.cons_append, reportsFrom, lineAfter, later, List.append_assoc]

/-! ### Counting lines -/

def newlines (cs : List Char) : Nat := cs.count '\n'

@[simp] theorem newlines_nil : newlines [] = 0 := rfl

@[simp] theorem newlines_append (cs ds : List Char) :
    newlines (cs ++ ds) = newlines cs + newlines ds := List.count_append

theorem lineEnds_eq_zero {s : Segment} (h : '\n' ∉ s.text) : s.lineEnds = 0 := by
  rw [Segment.lineEnds, List.count_eq_zero.mpr h]
  rfl

theorem lineAfter_eq (line : UInt32) (ss : List Segment) :
    lineAfter line ss = line + UInt32.ofNat (newlines (ss.flatMap Segment.text)) := by
  induction ss generalizing line with
  | nil => simp [lineAfter]
  | cons s rest ih =>
    have here : s.lineEnds = UInt32.ofNat (newlines s.text) := rfl
    rw [lineAfter, ih, here, List.flatMap_cons, newlines_append, UInt32.ofNat_add, UInt32.add_assoc]

/-- The line number does not wrap as long as the source has at most 2³² - 2 line ends. -/
theorem toNat_one_add {n : Nat} (h : n ≤ UInt32.size - 2) : (1 + UInt32.ofNat n).toNat = 1 + n := by
  have size : UInt32.size = 4294967296 := rfl
  have small : n < UInt32.size := by omega
  rw [UInt32.toNat_add, UInt32.toNat_ofNat_of_lt' small, UInt32.toNat_one]
  omega

end Lox.Lexical
