import Lox.Lexical.Scan

/-!
# Sessions with a sink

One sink may serve many scans.  A session is a list of steps (`scan`, `report`, `reset`) taken with the
same sink, one after the other; each step answers with the tokens of its scan, if it is one, and with
what it changed.
-/

namespace Lox

open Lexical (scanInto)

inductive Step where
  | scan (source : String)
  | report (r : Report)
  /-- Forgets that there was a report. -/
  | reset
  | breakStream
  | mendStream
  deriving DecidableEq, Repr

namespace Console

def step (c : Console) : Step → Option (List Token) × Console
  | .scan source => ((scanInto source c).1, (scanInto source c).2)
  | .report r => (none, c.report r)
  | .reset => (none, c.reset)
  | .breakStream => (none, { c with fails := true })
  | .mendStream => (none, { c with fails := false })

/-- What a step shows: its tokens, what it added to the stream, and whether there was a report
since the last reset. -/
structure Answer where
  tokens : Option (List Token)
  written : String
  hadError : Bool
  deriving Repr

def added (before after : String) : String :=
  String.ofList (after.toList.drop before.length)

def answer (c : Console) (s : Step) : Answer :=
  ⟨(c.step s).1, added c.stream (c.step s).2.stream, (c.step s).2.hadError⟩

def session (c : Console) : List Step → List Answer × Console
  | [] => ([], c)
  | s :: rest =>
    let later := session (c.step s).2 rest
    (c.answer s :: later.1, later.2)

end Console

namespace Collector

/-- Takes one step.  A collector has no stream and no memory of errors apart from its reports, so
only scans and reports change it. -/
def step (c : Collector) : Step → Option (List Token) × Collector
  | .scan source => ((scanInto source c).1, (scanInto source c).2)
  | .report r => (none, c.report r)
  | .reset | .breakStream | .mendStream => (none, c)

structure Answer where
  tokens : Option (List Token)
  added : List Report
  deriving Repr

def answer (c : Collector) (s : Step) : Answer :=
  ⟨(c.step s).1, (c.step s).2.reports.toList.drop c.reports.size⟩

def session (c : Collector) : List Step → List Answer × Collector
  | [] => ([], c)
  | s :: rest =>
    let later := session (c.step s).2 rest
    (c.answer s :: later.1, later.2)

end Collector

end Lox
