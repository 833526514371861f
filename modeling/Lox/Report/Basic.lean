/-!
# Reports

A report is a message about a line of the source.  Whoever scans a source chooses the sink that
takes in the reports (`Reporter`), one at a time and in the order in which they are found; a sink cannot
stop the scan.  A collector keeps them in order, and a console (`ConsoleReporter`) writes them down.
-/

namespace Lox

structure Report where
  line : UInt32
  message : String
  deriving DecidableEq, Repr

namespace Report

/-- The line of text that a user sees, with its newline. -/
def render (r : Report) : String :=
  "[line " ++ Nat.repr r.line.toNat ++ "] Error: " ++ r.message ++ "\n"

end Report

/-- A state that takes in reports. -/
class Sink (σ : Type) where
  report : σ → Report → σ

structure Collector where
  reports : Array Report := #[]

namespace Collector

def report (c : Collector) (r : Report) : Collector := ⟨c.reports.push r⟩

instance : Sink Collector := ⟨report⟩

@[simp] theorem toList_report (c : Collector) (r : Report) :
    (c.report r).reports.toList = c.reports.toList ++ [r] := by
  simp [report]

end Collector

/-- The sink that writes reports to a stream of text and remembers that there was one.  A stream
that fails loses what is written to it, and the console takes no notice of that. -/
structure Console where
  stream : String := ""
  fails : Bool := false
  hadError : Bool := false
  deriving DecidableEq, Repr

namespace Console

def write (c : Console) (text : String) : Console :=
  if c.fails then c else { c with stream := c.stream ++ text }

def report (c : Console) (r : Report) : Console :=
  { c.write r.render with hadError := true }

instance : Sink Console := ⟨report⟩

def reset (c : Console) : Console := { c with hadError := false }

@[simp] theorem hadError_report (c : Console) (r : Report) : (c.report r).hadError = true := rfl

theorem stream_report (c : Console) (r : Report) :
    (c.report r).stream = if c.fails then c.stream else c.stream ++ r.render := by
  unfold report write
  split <;> rfl

end Console

end Lox
