import Lox.Proofs.CursorInvariant
import Lox.Proofs.Layout

/-!
# Local recovery

An unexpected character costs a scan nothing but that character: with a space in its place, and
without the comments, a source has the same tokens on the same lines.  What has to be shown is that no
segment goes on into the repaired text after it.  That text begins with a blank or with a segment
that has been kept, and of a kept segment the first character is the same as before.
-/

namespace Lox.Lexical

/-! ### The repaired source -/

/-- What stands for a segment in the repaired source. -/
def Segment.repair : Segment → List Segment
  | comment _ => []
  | foreign _ => [blank ' ']
  | s => [s]

def repair (cs : List Char) : List Char :=
  ((segments cs).flatMap Segment.repair).flatMap Segment.text

/-- The source with a space for each unexpected character and without its comments. -/
def repaired (source : String) : String := String.ofList (repair source.toList)

theorem repair_nil : repair [] = [] := by
  rw [repair, segments_nil, List.flatMap_nil, List.flatMap_nil]

theorem repair_append {seg : Segment} {rest : List Char} (h : seg.EndsBefore rest) :
    repair (seg.text ++ rest) = seg.repair.flatMap Segment.text ++ repair rest := by
  rw [repair, segments_append h, List.flatMap_cons, List.flatMap_append]
  rfl

/-! ### How the repaired text begins -/

/-- The first segment has been kept, or else the text begins with a blank if with anything. -/
theorem repair_cases (cs : List Char) :
    Detached (repair cs) ∨ ∃ (seg : Segment) (rest : List Char), seg.EndsBefore rest
      ∧ cs = seg.text ++ rest ∧ repair cs = seg.text ++ repair rest := by
  by_cases empty : cs = []
  · rw [empty, repair_nil]
    exact .inl nofun
  obtain ⟨seg, rest, ends, rfl⟩ := exists_cut empty
  rw [repair_append ends]
  have kept (same : seg.repair = [seg]) : ∃ (seg' : Segment) (rest' : List Char),
      seg'.EndsBefore rest' ∧ seg.text ++ rest = seg'.text ++ rest'
        ∧ seg.repair.flatMap Segment.text ++ repair rest = seg'.text ++ repair rest' := by
    refine ⟨seg, rest, ends, rfl, ?_⟩
    rw [same, List.flatMap_singleton]
  cases seg with
  | comment body =>
    -- all that can follow a comment is the end of its line
    left
    show Detached (repair rest)
    cases ends with
    | comment _ hrest =>
      cases rest with
      | nil =>
        rw [repair_nil]
        exact nofun
      | cons c rest =>
        obtain rfl := hrest c rfl
        have newline : (Segment.blank '\n').EndsBefore rest := .blank rfl
        have begins : repair ('\n' :: rest) = '\n' :: repair rest := repair_append newline
        rw [begins]
        exact detached_cons rfl _
  | foreign c => exact .inl (detached_cons rfl _)
  | blank c => exact .inr (kept rfl)
  | lexeme kind characters => exact .inr (kept rfl)
  | openString body => exact .inr (kept rfl)

theorem head?_repair {cs : List Char} {c : Char} (h : (repair cs).head? = some c)
    (solid : isBlank c = false) : cs.head? = some c := by
  rcases repair_cases cs with detached | ⟨seg, rest, ends, rfl, same⟩
  · rw [detached c h] at solid
    contradiction
  · obtain ⟨d, ds, text⟩ := List.exists_cons_of_ne_nil ends.text_ne_nil
    rw [same, text] at h
    rw [text]
    exact h

/-- A point is a segment of its own, so after it too the repaired text begins as the source does. -/
theorem point_repair {cs tail : List Char} {d : Char} (h : repair cs = '.' :: d :: tail)
    (digit : d.isDigit) : ∃ tail', cs = '.' :: d :: tail' := by
  rcases repair_cases cs with detached | ⟨seg, rest, ends, rfl, same⟩
  · have blank := detached '.' (by rw [h]; rfl)
    contradiction
  · obtain ⟨c, text, cut⟩ := List.exists_cons_of_ne_nil ends.text_ne_nil
    rw [same, cut] at h
    obtain ⟨rfl, _⟩ := List.cons.inj h
    have dot : first '.' (text ++ rest) = (.lexeme .dot ['.'], text ++ rest) := rfl
    have only : first '.' (text ++ rest) = (seg, rest) :=
      first_of_endsBefore ends (by rw [cut]; rfl)
    obtain ⟨rfl, whole⟩ := Prod.mk.inj (dot.symm.trans only)
    obtain rfl := List.append_left_eq_self.mp whole
    have after : repair rest = d :: tail := (List.cons.inj h).2
    have next : (repair rest).head? = some d := congrArg List.head? after
    have solid := isBlank_eq_false_of_isWordChar (isWordChar_of_isDigit digit)
    obtain ⟨tail', rfl⟩ := List.head?_eq_some_iff.mp (head?_repair next solid)
    exact ⟨tail', rfl⟩

theorem beginsLike_repair (cs : List Char) : BeginsLike (repair cs) cs where
  head := fun _ head solid _ => head?_repair head solid
  point := fun _ _ point digit => point_repair point digit

/-! ### The segments of the repaired source -/

theorem segments_repair (cs : List Char) :
    segments (repair cs) = (segments cs).flatMap Segment.repair := by
  induction cs using source_induction with
  | nil => rw [repair_nil, segments_nil, List.flatMap_nil]
  | cut seg rest ends ih =>
    have blank {c : Char} (hc : isBlank c) :
        segments (c :: repair rest) = .blank c :: (segments rest).flatMap Segment.repair := by
      rw [← ih]
      exact segments_append (.blank hc)
    rw [repair_append ends, segments_append ends, List.flatMap_cons]
    cases seg with
    | blank c =>
      cases ends with
      | blank hc => exact blank hc
    | comment body => exact ih
    | foreign c => exact blank rfl
    | lexeme kind characters =>
      have complete : (Segment.lexeme kind characters).EndsBefore (repair rest) :=
        (beginsLike_repair rest).endsBefore ends
      have cut := segments_append complete
      rw [ih] at cut
      simpa [Segment.repair] using cut
    | openString body =>
      cases ends with
      | openString hbody =>
        have only := segments_append (.openString hbody)
        rw [segments_nil, List.append_nil] at only
        simpa [Segment.repair, repair_nil] using only

/-! ### What the scan makes of them -/

def isUnterminated (r : Report) : Bool := r.message == "Unterminated string"

theorem isUnterminated_unexpected (c : Char) (line : UInt32) :
    isUnterminated (LexicalError.unexpectedCharacter c line).report = false := by
  have differs : "Unexpected character '" ++ c.toString ++ "'" ≠ "Unterminated string" := by
    intro same
    have length := congrArg String.length same
    have long : "Unexpected character '".length = 22 := by decide
    have short : "Unterminated string".length = 19 := by decide
    rw [String.length_append, String.length_append, long, short] at length
    omega
  exact beq_eq_false_iff_ne.mpr differs

section Segments

variable {seg : Segment} {rest : List Char} (line : UInt32)

theorem lineAfter_repair (h : seg.EndsBefore rest) :
    lineAfter line seg.repair = line + seg.lineEnds := by
  cases h with
  | @comment body _ hbody _ =>
    have none : (Segment.comment body).lineEnds = 0 :=
      lineEnds_eq_zero (by simpa [Segment.text] using hbody)
    rw [none, UInt32.add_zero]
    rfl
  | @foreign c _ hc =>
    have differs : c ≠ '\n' := ne_newline_of_classify (by simp [hc])
    have none : (Segment.foreign c).lineEnds = 0 :=
      lineEnds_eq_zero (by simpa [Segment.text] using differs.symm)
    rw [none]
    rfl
  | _ => rfl

theorem tokensFrom_repair :
    tokensFrom line seg.repair = (seg.token? (line + seg.lineEnds)).toList := by
  cases seg with
  | lexeme kind characters => exact List.append_nil _
  | _ => rfl

theorem reportsFrom_repair :
    reportsFrom line seg.repair
      = (seg.report? (line + seg.lineEnds)).toList.filter isUnterminated := by
  cases seg with
  | foreign c =>
    have other := isUnterminated_unexpected c (line + (Segment.foreign c).lineEnds)
    exact (List.filter_eq_nil_iff.mpr (by simpa [Segment.report?] using other)).symm
  | _ => rfl

end Segments

structure Preserved (line : UInt32) (ss : List Segment) : Prop where
  reached : lineAfter line (ss.flatMap Segment.repair) = lineAfter line ss
  tokens : tokensFrom line (ss.flatMap Segment.repair) = tokensFrom line ss
  reports : reportsFrom line (ss.flatMap Segment.repair)
    = (reportsFrom line ss).filter isUnterminated

theorem preserved_repair {ss : List Segment} (h : ∀ s ∈ ss, ∃ rest, s.EndsBefore rest)
    (line : UInt32) : Preserved line ss := by
  induction ss generalizing line with
  | nil => exact ⟨rfl, rfl, rfl⟩
  | cons s ss ih =>
    obtain ⟨⟨rest, ends⟩, later⟩ := List.forall_mem_cons.mp h
    have next := ih later (line + s.lineEnds)
    have reached := lineAfter_repair line ends
    constructor
    · rw [List.flatMap_cons, lineAfter_append, reached]
      exact next.reached
    · rw [List.flatMap_cons, tokensFrom_append, reached, tokensFrom_repair, next.tokens]
      rfl
    · rw [List.flatMap_cons, reportsFrom_append, reached, reportsFrom_repair, next.reports,
        ← List.filter_append]
      rfl

/-- At most the last segment is an open string. -/
theorem length_unterminated_le (line : UInt32) (cs : List Char) :
    ((reportsFrom line (segments cs)).filter isUnterminated).length ≤ 1 := by
  induction cs using source_induction generalizing line with
  | nil =>
    rw [segments_nil]
    exact Nat.zero_le 1
  | cut seg rest ends ih =>
    rw [segments_append ends, reportsFrom, List.filter_append, List.length_append]
    have later := ih (line + seg.lineEnds)
    cases seg with
    | openString body =>
      cases ends with
      | openString hbody =>
        rw [segments_nil]
        exact Nat.le_refl 1
    | foreign c =>
      have other := isUnterminated_unexpected c (line + (Segment.foreign c).lineEnds)
      simpa [Segment.report?, other] using later
    | _ => simpa [Segment.report?] using later

/-- The repaired source has the same tokens, on the same lines, and of its reports only the one of a
string that is never closed, if there is such a string. -/
theorem scan_repaired (source : String) :
    (scan (repaired source)).tokens = (scan source).tokens
      ∧ (scan (repaired source)).reports = (scan source).reports.filter isUnterminated
      ∧ ((scan source).reports.filter isUnterminated).length ≤ 1 := by
  have cut : segments (repaired source).toList = (segments source.toList).flatMap Segment.repair := by
    rw [repaired, String.toList_ofList, segments_repair]
  have ends : ∀ s ∈ segments source.toList, ∃ rest, s.EndsBefore rest :=
    fun _ => exists_endsBefore_of_mem
  have same := preserved_repair ends 1
  refine ⟨?_, ?_, ?_⟩
  · rw [scan_tokens, scan_tokens, cut, same.tokens, same.reached]
  · rw [scan_reports, scan_reports, cut, same.reports]
  · rw [scan_reports]
    exact length_unterminated_le 1 source.toList

-- No point becomes part of a number and no slash part of a comment.
example : repaired "1@.5/é/x//\"c\n\"#" = "1 .5/ /x\n\"#" := by decide +kernel

end Lox.Lexical
