import Lox.Proofs.Reading
import Lox.Report.Session
import Mathlib.Data.List.DropRight

/-!
# A console beside a collector

Two sinks go through the same session.  The collector keeps every report; the console writes each one
down if its stream works, and remembers until the next reset that there was one, written or lost.
What one step brings does not depend on the sink, so both are followed step by step against the
reports of the steps (`Console.hadError_after`, `Collector.reports_after`).
-/

namespace Lox

open Lexical (scan scanInto_eq toList_foldl_report)

/-! ### What a step brings -/

namespace Step

/-- The tokens of the scan, done with a sink of its own. -/
def tokens : Step → Option (List Token)
  | .scan source => some (Lexical.scan source).tokens
  | _ => none

/-- The reports that the step sends to its sink. -/
def reports : Step → List Report
  | .scan source => (Lexical.scan source).reports
  | .report r => [r]
  | _ => []

/-- Whether the stream fails after the step, if it did or did not before. -/
def failing (fails : Bool) : Step → Bool
  | .breakStream => true
  | .mendStream => false
  | _ => fails

end Step

/-- The steps up to the last reset, none if there is no reset. -/
def upToReset (steps : List Step) : List Step := steps.rdropWhile (· ≠ .reset)

/-- The steps after the last reset, all of them if there is none. -/
def sinceReset (steps : List Step) : List Step := steps.rtakeWhile (· ≠ .reset)

theorem upToReset_append_sinceReset (steps : List Step) :
    upToReset steps ++ sinceReset steps = steps := List.rdropWhile_append_rtakeWhile

theorem sinceReset_concat_reset (steps : List Step) : sinceReset (steps ++ [.reset]) = [] :=
  List.rtakeWhile_concat_neg _ _ _ (by simp)

theorem sinceReset_concat {s : Step} (other : s ≠ .reset) (steps : List Step) :
    sinceReset (steps ++ [s]) = sinceReset steps ++ [s] :=
  List.rtakeWhile_concat_pos _ _ _ (by simpa using other)

/-! ### The console -/

namespace Console

def after (c : Console) (steps : List Step) : Console := (c.session steps).2

theorem fails_report (c : Console) (r : Report) : (c.report r).fails = c.fails := by
  unfold report write
  split <;> rfl

theorem fails_foldl_report (reports : List Report) (c : Console) :
    (reports.foldl Sink.report c).fails = c.fails := by
  induction reports generalizing c with
  | nil => rfl
  | cons r rest ih => exact (ih (c.report r)).trans (fails_report c r)

theorem stream_foldl_report (reports : List Report) (c : Console) :
    (reports.foldl Sink.report c).stream
      = c.stream ++ if c.fails then "" else String.join (reports.map Report.render) := by
  induction reports generalizing c with
  | nil =>
    rw [List.map_nil, String.join_nil, ite_self, String.append_empty]
    rfl
  | cons r rest ih =>
    have later := ih (c.report r)
    rw [stream_report, fails_report] at later
    rw [List.foldl_cons, List.map_cons, String.join_cons]
    refine later.trans ?_
    cases c.fails
    · exact String.append_assoc
    · rfl

theorem hadError_foldl_report (reports : List Report) (c : Console) :
    (reports.foldl Sink.report c).hadError = (c.hadError || !reports.isEmpty) := by
  induction reports generalizing c with
  | nil => exact (Bool.or_false _).symm
  | cons r rest ih =>
    refine (ih (c.report r)).trans ?_
    rw [hadError_report, Bool.true_or, List.isEmpty_cons, Bool.not_false, Bool.or_true]

variable (c : Console) (s : Step)

theorem step_scan (source : String) :
    (c.step (.scan source)).2 = (scan source).reports.foldl Sink.report c :=
  congrArg Prod.snd (scanInto_eq source c)

theorem tokens_step : (c.step s).1 = s.tokens := by
  cases s with
  | scan source => exact congrArg (fun p => some p.1) (scanInto_eq source c)
  | _ => rfl

theorem fails_step : (c.step s).2.fails = s.failing c.fails := by
  cases s with
  | scan source =>
    rw [step_scan]
    exact fails_foldl_report _ c
  | report r => exact fails_report c r
  | _ => rfl

theorem stream_step :
    (c.step s).2.stream
      = c.stream ++ if c.fails then "" else String.join (s.reports.map Report.render) := by
  cases s with
  | scan source =>
    rw [step_scan]
    exact stream_foldl_report _ c
  | report r => exact stream_foldl_report [r] c
  | _ => exact stream_foldl_report [] c

theorem hadError_step (h : s ≠ .reset) :
    (c.step s).2.hadError = (c.hadError || !s.reports.isEmpty) := by
  cases s with
  | scan source =>
    rw [step_scan]
    exact hadError_foldl_report _ c
  | report r => exact hadError_foldl_report [r] c
  | reset => contradiction
  | _ => exact hadError_foldl_report [] c

/-! ### The console along a session -/

theorem after_concat (steps : List Step) :
    c.after (steps ++ [s]) = ((c.after steps).step s).2 := by
  induction steps generalizing c with
  | nil => rfl
  | cons t rest ih => exact ih (c.step t).2

theorem answer_mem_session (earlier later : List Step) :
    (c.session (earlier ++ s :: later)).1[earlier.length]? = some ((c.after earlier).answer s) := by
  induction earlier generalizing c with
  | nil => rfl
  | cons t rest ih => exact ih (c.step t).2

theorem fails_after (steps : List Step) :
    (c.after steps).fails = steps.foldl Step.failing c.fails := by
  induction steps using List.reverseRecOn with
  | nil => rfl
  | append_singleton steps s ih => rw [after_concat, fails_step, ih, List.foldl_concat]

/-- The console remembers just the reports since the last reset. -/
theorem hadError_after (fresh : c.hadError = false) (steps : List Step) :
    (c.after steps).hadError = true ↔ (sinceReset steps).flatMap Step.reports ≠ [] := by
  -- from the last step backwards, since a reset forgets all that came before it
  induction steps using List.reverseRecOn with
  | nil => exact iff_of_false (by simp [after, session, fresh]) (not_not_intro rfl)
  | append_singleton steps s ih =>
    rw [after_concat]
    by_cases reset : s = .reset
    · subst reset
      rw [sinceReset_concat_reset]
      exact iff_of_false Bool.false_ne_true (not_not_intro rfl)
    · rw [hadError_step _ s reset, Bool.or_eq_true, ih, Bool.not_eq_true', List.isEmpty_eq_false_iff,
        sinceReset_concat reset, List.flatMap_append, List.flatMap_singleton, Ne, Ne, Ne,
        List.append_eq_nil_iff, not_and_or]

theorem added_append (before more : String) : added before (before ++ more) = more := by
  rw [added, String.toList_append, ← String.length_toList, List.drop_left, String.ofList_toList]

theorem written_answer :
    (c.answer s).written
      = if c.fails then "" else String.join (s.reports.map Report.render) := by
  rw [answer, stream_step, added_append]

end Console

/-! ### The collector -/

namespace Collector

def after (k : Collector) (steps : List Step) : Collector := (k.session steps).2

variable (k : Collector) (s : Step)

theorem tokens_step : (k.step s).1 = s.tokens := by
  cases s with
  | scan source => exact congrArg (fun p => some p.1) (scanInto_eq source k)
  | _ => rfl

theorem reports_step : (k.step s).2.reports.toList = k.reports.toList ++ s.reports := by
  cases s with
  | scan source =>
    have taken := congrArg Prod.snd (scanInto_eq source k)
    exact (congrArg (fun k : Collector => k.reports.toList) taken).trans (toList_foldl_report _ k)
  | report r => exact toList_report k r
  | _ => exact (List.append_nil _).symm

theorem added_answer : (k.answer s).added = s.reports := by
  rw [answer, reports_step, ← Array.length_toList, List.drop_left]

theorem after_append (earlier later : List Step) :
    k.after (earlier ++ later) = (k.after earlier).after later := by
  induction earlier generalizing k with
  | nil => rfl
  | cons s rest ih => exact ih (k.step s).2

theorem answer_mem_session (earlier later : List Step) :
    (k.session (earlier ++ s :: later)).1[earlier.length]? = some ((k.after earlier).answer s) := by
  induction earlier generalizing k with
  | nil => rfl
  | cons t rest ih => exact ih (k.step t).2

/-- The collector keeps the reports of all steps. -/
theorem reports_after (steps : List Step) :
    (k.after steps).reports.toList = k.reports.toList ++ steps.flatMap Step.reports := by
  induction steps generalizing k with
  | nil => exact (List.append_nil _).symm
  | cons s rest ih =>
    have later := ih (k.step s).2
    rw [reports_step, List.append_assoc] at later
    exact later

/-- The collector has grown just when one of the steps brought a report. -/
theorem size_lt_size_after (steps : List Step) :
    k.reports.size < (k.after steps).reports.size ↔ steps.flatMap Step.reports ≠ [] := by
  rw [← Array.length_toList, ← Array.length_toList, reports_after, List.length_append,
    ← List.length_pos_iff]
  omega

theorem size_upToReset_lt (steps : List Step) :
    (k.after (upToReset steps)).reports.size < (k.after steps).reports.size
      ↔ (sinceReset steps).flatMap Step.reports ≠ [] := by
  have parts := k.after_append (upToReset steps) (sinceReset steps)
  rw [upToReset_append_sinceReset] at parts
  rw [parts]
  exact size_lt_size_after _ _

end Collector

/-! ### Both together -/

/-- What a console and a collector show for a step after the same earlier steps: the console started
as `c`, the collector as `k`, and they answer with `a` and `b`. -/
structure Mirrors (c : Console) (k : Collector) (earlier : List Step) (s : Step)
    (a : Console.Answer) (b : Collector.Answer) : Prop where
  /-- The tokens are those of a scan with a new sink. -/
  tokens : a.tokens = s.tokens ∧ b.tokens = s.tokens
  gained : (k.after (earlier ++ [s])).reports.toList = (k.after earlier).reports.toList ++ b.added
  stream : (c.after (earlier ++ [s])).stream = (c.after earlier).stream ++ a.written
  /-- Each entry that the collector gained is written down once and in order, or none is. -/
  written : a.written
    = if earlier.foldl Step.failing c.fails then ""
      else String.join (b.added.map fun r =>
        "[line " ++ Nat.repr r.line.toNat ++ "] Error: " ++ r.message ++ "\n")
  /-- The console remembers an error just when the collector has grown since the last reset. -/
  hadError : a.hadError = true
    ↔ (k.after (upToReset (earlier ++ [s]))).reports.size < (k.after (earlier ++ [s])).reports.size

theorem mirrors_answer {c : Console} (fresh : c.hadError = false) (k : Collector)
    (earlier : List Step) (s : Step) :
    Mirrors c k earlier s ((c.after earlier).answer s) ((k.after earlier).answer s) where
  tokens := ⟨Console.tokens_step _ s, Collector.tokens_step _ s⟩
  gained := by
    rw [Collector.after_append, Collector.added_answer]
    exact Collector.reports_step _ s
  stream := by
    rw [Console.after_concat, Console.stream_step, Console.written_answer]
  written := by
    rw [Console.written_answer, Console.fails_after, Collector.added_answer]
    rfl
  hadError := by
    have remembered := Console.hadError_after c fresh (earlier ++ [s])
    rw [Console.after_concat] at remembered
    exact remembered.trans (Collector.size_upToReset_lt k _).symm

/-- At every step of every session, a new console on any stream shows what a collector that goes
through the same steps gains. -/
theorem session_mirrors (stream : String) (fails : Bool) (k : Collector)
    (earlier : List Step) (s : Step) (later : List Step) :
    ∃ a b, (Console.session ⟨stream, fails, false⟩ (earlier ++ s :: later)).1[earlier.length]? = some a
      ∧ (k.session (earlier ++ s :: later)).1[earlier.length]? = some b
      ∧ Mirrors ⟨stream, fails, false⟩ k earlier s a b :=
  ⟨_, _, Console.answer_mem_session _ s earlier later, Collector.answer_mem_session k s earlier later,
    mirrors_answer rfl k earlier s⟩

end Lox
