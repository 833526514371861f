import Lox.Proofs.LineJoin
import Lox.Proofs.Rereading

/-!
# What ends a line

Carriage returns and line ends after a text make its last comment longer or come after it as blanks,
unless a string is open there.  Tokens and reports come from the other segments, which stay the
same (`solid_append`).
-/

namespace Lox.Lexical

/-! ### Solid segments -/

namespace Segment

/-- Something becomes of the segment, a token or a report. -/
def isSolid : Segment → Bool
  | blank _ | comment _ => false
  | _ => true

theorem filterMap_filter_isSolid {β : Type} {f : Segment → Option β}
    (none : ∀ s, s.isSolid = false → f s = none) (ss : List Segment) :
    (ss.filter isSolid).filterMap f = ss.filterMap f := by
  rw [List.filterMap_filter]
  apply List.filterMap_congr
  intro s _
  cases solid : s.isSolid
  · exact (none s solid).symm
  · rfl

theorem content?_of_isSolid {s : Segment} (h : s.isSolid = false) : s.content? = none := by
  cases s <;> first | rfl | contradiction

theorem report?_of_isSolid (line : UInt32) {s : Segment} (h : s.isSolid = false) :
    s.report? line = none := by
  cases s <;> first | rfl | contradiction

end Segment

def solid (cs : List Char) : List Segment := (segments cs).filter Segment.isSolid

theorem solid_nil : solid [] = [] := by
  rw [solid, segments_nil, List.filter_nil]

theorem solid_append_of_endsBefore {seg : Segment} {rest : List Char} (h : seg.EndsBefore rest) :
    solid (seg.text ++ rest) = [seg].filter Segment.isSolid ++ solid rest := by
  rw [solid, segments_append h, ← List.singleton_append, List.filter_append]
  rfl

theorem map_content_tokensFrom_solid (line : UInt32) (cs : List Char) :
    (tokensFrom line (segments cs)).map Token.content
      = (solid cs).filterMap Segment.content? := by
  rw [map_content_tokensFrom, solid,
    Segment.filterMap_filter_isSolid fun _ => Segment.content?_of_isSolid]

theorem reportsFrom_of_newline_notMem {line : UInt32} {ss : List Segment}
    (h : '\n' ∉ ss.flatMap Segment.text) :
    reportsFrom line ss = ss.filterMap (Segment.report? line) := by
  induction ss with
  | nil => rfl
  | cons s rest ih =>
    rw [List.flatMap_cons, List.mem_append, not_or] at h
    rw [reportsFrom, lineEnds_eq_zero h.1, UInt32.add_zero, ih h.2, List.filterMap_cons]
    cases s.report? line <;> rfl

/-- On a single line, the reports are those of the solid segments. -/
theorem reportsFrom_solid (line : UInt32) {cs : List Char} (h : '\n' ∉ cs) :
    reportsFrom line (segments cs) = (solid cs).filterMap (Segment.report? line) := by
  have single : '\n' ∉ (segments cs).flatMap Segment.text := by
    rw [texts_segments]
    exact h
  rw [reportsFrom_of_newline_notMem single, solid,
    Segment.filterMap_filter_isSolid fun _ => Segment.report?_of_isSolid line]

/-! ### Closed texts -/

/-- No string is open at the end of the text. -/
def Closed (cs : List Char) : Prop := ∀ body, Segment.openString body ∉ segments cs

theorem closed_of_messages {line : List Char}
    (h : ∀ r ∈ (scan (String.ofList line)).reports, r.message ≠ "Unterminated string") :
    Closed line := by
  intro body mem
  obtain ⟨r, reported, message⟩ := exists_report_of_openString 1 mem
  rw [scan_reports, String.toList_ofList] at h
  exact h r reported message

/-! ### A line end between two texts -/

section Between

variable {part : List Char} (closed : Closed part) (rest : List Char)

include closed

theorem solid_append_newline : solid (part ++ '\n' :: rest) = solid part ++ solid rest := by
  rw [solid, segments_append_newline part rest closed, List.filter_append]
  rfl

theorem reportsFrom_append_newline (single : '\n' ∉ part) (k : Nat) :
    reportsFrom (1 + UInt32.ofNat k) (segments (part ++ '\n' :: rest))
      = reportsFrom (1 + UInt32.ofNat k) (segments part)
        ++ reportsFrom (1 + UInt32.ofNat (k + 1)) (segments rest) := by
  have none : newlines part = 0 := List.count_eq_zero.mpr single
  have next : lineAfter (1 + UInt32.ofNat k) (segments part) + (Segment.blank '\n').lineEnds
      = 1 + UInt32.ofNat (k + 1) := by
    have start : lineAfter (1 + UInt32.ofNat k) (segments part) = 1 + UInt32.ofNat k := by
      rw [lineAfter_eq, texts_segments, none]
      exact UInt32.add_zero _
    rw [start, UInt32.ofNat_add]
    exact UInt32.add_assoc _ _ _
  rw [segments_append_newline part rest closed, reportsFrom_append, ← next]
  rfl

end Between

/-! ### What ends a line -/

section After

variable {tail : List Char} (ends : ∀ c ∈ tail, c = '\r' ∨ c = '\n')

theorem isBlank_of_end {c : Char} (h : c = '\r' ∨ c = '\n') : isBlank c := by
  rcases h with rfl | rfl <;> rfl

include ends

theorem solid_ends : solid tail = [] := by
  induction tail with
  | nil => exact solid_nil
  | cons c tail ih =>
    obtain ⟨here, later⟩ := List.forall_mem_cons.mp ends
    have blank : (Segment.blank c).EndsBefore tail := .blank (isBlank_of_end here)
    have cut := solid_append_of_endsBefore blank
    rw [ih later] at cut
    exact cut

/-- A comment takes in what ends its line, up to the line end. -/
theorem solid_comment_append {body : List Char} (hbody : '\n' ∉ body) :
    solid ('/' :: '/' :: body ++ tail) = [] := by
  have parts := List.takeWhile_append_dropWhile (p := (· != '\n')) (l := tail)
  have longer : '\n' ∉ body ++ tail.takeWhile (· != '\n') := by
    rw [List.mem_append, not_or]
    exact ⟨hbody, notMem_takeWhile_bne '\n' tail⟩
  have comment : (Segment.comment (body ++ tail.takeWhile (· != '\n'))).EndsBefore
      (tail.dropWhile (· != '\n')) := by
    refine .comment longer ?_
    intro c hc
    have stops := head?_dropWhile_run c hc
    simpa using stops
  have later : ∀ c ∈ tail.dropWhile (· != '\n'), c = '\r' ∨ c = '\n' := by
    intro c mem
    exact ends c ((List.dropWhile_sublist _).mem mem)
  have cut := solid_append_of_endsBefore comment
  rw [solid_ends later, Segment.text, List.cons_append, List.cons_append, List.append_assoc,
    parts] at cut
  exact cut

theorem not_closed_openString {body : List Char} (hbody : '"' ∉ body) :
    ¬ Closed ('"' :: body ++ tail) := by
  have unclosed : '"' ∉ body ++ tail := by
    rw [List.mem_append, not_or]
    refine ⟨hbody, ?_⟩
    intro mem
    rcases ends '"' mem with same | same <;> contradiction
  have final : (Segment.openString (body ++ tail)).EndsBefore [] := .openString unclosed
  have cut := segments_append final
  rw [List.append_nil] at cut
  intro closed
  apply closed (body ++ tail)
  show _ ∈ segments (Segment.openString (body ++ tail)).text
  rw [cut]
  exact List.mem_cons_self

/-- What ends a line makes no difference to its solid segments. -/
theorem solid_append {cs : List Char} (closed : Closed (cs ++ tail)) :
    solid (cs ++ tail) = solid cs := by
  induction cs using source_induction with
  | nil => rw [List.nil_append, solid_ends ends, solid_nil]
  | cut seg rest h ih =>
    -- where the segment stays as it is, the rest of the text decides
    have same (stays : seg.EndsBefore (rest ++ tail)) :
        solid (seg.text ++ rest ++ tail) = solid (seg.text ++ rest) := by
      rw [List.append_assoc] at closed ⊢
      have later : Closed (rest ++ tail) := by
        intro body mem
        apply closed body
        rw [segments_append stays]
        exact List.mem_cons_of_mem seg mem
      rw [solid_append_of_endsBefore stays, solid_append_of_endsBefore h, ih later]
    cases tail with
    | nil => rw [List.append_nil]
    | cons e tail =>
      have blank := isBlank_of_end (ends e List.mem_cons_self)
      cases seg with
      | openString body =>
        cases h with
        | openString hbody =>
          rw [List.append_nil] at closed
          exact absurd closed (not_closed_openString ends hbody)
      | comment body =>
        cases rest with
        | nil =>
          cases h with
          | comment hbody _ =>
            have none : ∀ c ∈ [], c = '\r' ∨ c = '\n' := nofun
            have alone := solid_comment_append none hbody
            rw [List.append_nil] at alone ⊢
            exact (solid_comment_append ends hbody).trans alone.symm
        | cons c rest => exact same (h.append_blank blank nofun (fun _ _ => .inl nofun) tail)
      | _ => exact same (h.append_blank blank nofun nofun tail)

end After

end Lox.Lexical
