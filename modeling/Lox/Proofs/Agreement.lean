import Lox.Proofs.Conversation
import Lox.Proofs.LineEnds

/-!
# The same text typed in and as a script

As long as no string goes on over a line end and no line says `exit`, it makes no difference to the
tokens and the messages whether a text is typed in line by line or run as a script.  A report of the
script bears the number of the line it is about; typed in, every line is a first line.
-/

namespace Lox

open Lexical Text

/-! ### What of a scan is compared -/

/-- The tokens without the mark of the end. -/
def innerTokens (source : String) : List Token :=
  (scan source).tokens.filter fun t => t.kind ≠ .endOfSource

theorem innerTokens_eq (source : String) :
    innerTokens source = tokensFrom 1 (segments source.toList) := by
  have inner : ∀ t ∈ tokensFrom 1 (segments source.toList), t.kind ≠ .endOfSource := by
    intro t mem
    exact (produced_of_mem_tokensFrom mem).kind
  rw [innerTokens, scan_tokens, List.filter_append, List.filter_eq_self.mpr (by simpa using inner)]
  exact List.append_nil _

theorem map_content_innerTokens (source : String) :
    (innerTokens source).map Token.content
      = (solid source.toList).filterMap Segment.content? := by
  rw [innerTokens_eq, map_content_tokensFrom_solid]

/-- The reports on texts that stand on lines of their own, each with the number of its line. -/
def reportsByLine (first : Nat) : List String → List (Nat × Report)
  | [] => []
  | text :: later => (scan text).reports.map (first, ·) ++ reportsByLine (first + 1) later

/-- The report `r` of the script is the one that was made for the line when it was typed in. -/
structure Moved (typed : Nat × Report) (r : Report) : Prop where
  message : r.message = typed.2.message
  first : typed.2.line = 1
  line : r.line.toNat = typed.1

/-! ### One line -/

def trimmedText (line : List Char) : String := String.ofList (trimEnd line)

theorem toList_trimmedText (line : List Char) : (trimmedText line).toList = trimEnd line :=
  String.toList_ofList

section Part

variable {part line : List Char} (ends : line = part ∨ line = part ++ ['\n'])

include ends

theorem trimEnd_part : trimEnd line = trimEnd part := by
  rcases ends with rfl | rfl
  · rfl
  · exact trimEnd_append (List.forall_mem_singleton.mpr (.inr rfl)) part

theorem solid_trimEnd (closed : Closed part) : solid (trimEnd line) = solid part := by
  rw [trimEnd_part ends]
  obtain ⟨tail, ends, whole⟩ := (trimmed_trimEnd part).ends
  have same : Closed (trimEnd part ++ tail) → solid (trimEnd part ++ tail) = _ := solid_append ends
  rw [whole] at same
  exact (same closed).symm

theorem newline_notMem_trimEnd (h : '\n' ∉ part) : '\n' ∉ trimEnd line := by
  rw [trimEnd_part ends]
  obtain ⟨tail, _, whole⟩ := (trimmed_trimEnd part).ends
  intro mem
  exact h (whole ▸ List.mem_append_left tail mem)

theorem moved_part (h : '\n' ∉ part) (closed : Closed part) {k : Nat}
    (small : k ≤ UInt32.size - 2) :
    List.Forall₂ Moved ((scan (trimmedText line)).reports.map (k + 1, ·))
      (reportsFrom (1 + UInt32.ofNat k) (segments part)) := by
  have single := newline_notMem_trimEnd ends h
  rw [reportsFrom_solid _ h, ← solid_trimEnd ends closed,
    ← reportsFrom_solid _ single, reportsFrom_add, List.forall₂_map_left_iff,
    List.forall₂_map_right_iff, ← toList_trimmedText, ← scan_reports, List.forall₂_same]
  rw [← toList_trimmedText] at single
  intro r mem
  have first : r.line = 1 := line_of_newline_notMem single mem
  refine ⟨rfl, first, ?_⟩
  show (r.line + UInt32.ofNat k).toNat = k + 1
  rw [first, toNat_one_add small, Nat.add_comm]

end Part

/-! ### Line by line -/

section Whole

variable {cs : List Char} {lines : List (List Char)}

theorem solid_lines (h : Lines '\n' cs lines) (closed : ∀ part ∈ cs.splitOn '\n', Closed part) :
    solid cs = lines.flatMap fun line => solid (trimEnd line) := by
  induction h with
  | nil => exact solid_nil
  | @last line filled unended =>
    rw [List.splitOn_eq_singleton unended, List.forall_mem_singleton] at closed
    rw [List.flatMap_singleton, solid_trimEnd (.inl rfl) closed]
  | @line part rest lines single later ih =>
    rw [splitOn_line single, List.forall_mem_cons] at closed
    rw [solid_append_newline closed.1, List.flatMap_cons, solid_trimEnd (.inr rfl) closed.1,
      ih closed.2]

theorem moved_lines (h : Lines '\n' cs lines) (closed : ∀ part ∈ cs.splitOn '\n', Closed part)
    (k : Nat) (small : k + newlines cs ≤ UInt32.size - 2) :
    List.Forall₂ Moved (reportsByLine (k + 1) (lines.map trimmedText))
      (reportsFrom (1 + UInt32.ofNat k) (segments cs)) := by
  induction h generalizing k with
  | nil =>
    rw [segments_nil]
    exact .nil
  | @last line filled unended =>
    rw [List.splitOn_eq_singleton unended, List.forall_mem_singleton] at closed
    have here := moved_part (.inl rfl) unended closed (k := k) (by omega)
    rw [List.map_singleton, reportsByLine, reportsByLine, List.append_nil]
    exact here
  | @line part rest lines single later ih =>
    rw [splitOn_line single, List.forall_mem_cons] at closed
    have count : newlines (part ++ '\n' :: rest) = newlines rest + 1 := by
      rw [newlines_append, newlines, newlines, List.count_eq_zero.mpr single, List.count_cons_self,
        Nat.zero_add]
      rfl
    rw [count] at small
    rw [reportsFrom_append_newline closed.1 rest single]
    exact List.rel_append (moved_part (.inr rfl) single closed.1 (by omega))
      (ih closed.2 (k + 1) (by omega))

end Whole

/-! ### What is shown -/

namespace Command

theorem listing_scan (source : String) :
    listing (scan source).tokens = listing (innerTokens source) ++ "EOF\n" := by
  rw [innerTokens_eq, scan_tokens, listing, listing, List.map_append, List.map_singleton,
    String.join_append, String.join_cons, String.join_nil, Token.render_endOfSource]
  rfl

/-- What is shown of the source when it is typed in, in lines that say `texts`, and when it is run
as a script. -/
structure Agrees (source : String) (texts : List String) (typed script : Outcome) : Prop where
  typed : typed.stdout
    = String.join (texts.map fun text => "> " ++ listing (innerTokens text) ++ "EOF\n") ++ "> "
  script : script.stdout = listing (innerTokens source) ++ "EOF\n"
  tokens : (innerTokens source).map Token.content
    = texts.flatMap fun text => (innerTokens text).map Token.content
  printed : (innerTokens source).map Token.render
    = texts.flatMap fun text => (innerTokens text).map Token.render
  reports : List.Forall₂ Moved (reportsByLine 1 texts) (scan source).reports

theorem entered_encode {source : String}
    (stays : ∀ line ∈ source.toList.splitOn '\n', line.rdropWhile (· == '\r') ≠ "exit".toList) :
    List.Forall₂ Entered (cut newlineByte (encode source))
      ((cut '\n' source.toList).map trimmedText) := by
  have bytes : encode source = source.toList.flatMap String.utf8EncodeChar := by
    rw [← encode_ofList, source.ofList_toList]
  have lines : cut newlineByte (encode source) = _ := bytes ▸ cut_encode source.toList
  rw [lines, List.forall₂_map_left_iff, List.forall₂_map_right_iff, List.forall₂_same]
  intro line mem
  obtain ⟨part, found, single, ends⟩ := (lines_cut source.toList).exists_part line mem
  refine ⟨⟨line, encode_ofList line, ?_⟩, ?_⟩
  · rw [toList_trimmedText]
    exact trimmed_trimEnd line
  · intro left
    apply stays part found
    rw [← trimEnd_of_newline_notMem single, ← trimEnd_part ends, ← toList_trimmedText, left]

theorem map_content_flatMap {source : String}
    (closed : ∀ part ∈ source.toList.splitOn '\n', Closed part) :
    (innerTokens source).map Token.content
      = ((cut '\n' source.toList).map trimmedText).flatMap fun text =>
        (innerTokens text).map Token.content := by
  rw [map_content_innerTokens, solid_lines (lines_cut source.toList) closed, List.filterMap_flatMap,
    List.flatMap_map]
  simp only [map_content_innerTokens, toList_trimmedText]

theorem map_render_of_contents {ts us : List Token}
    (h : ts.map Token.content = us.map Token.content) :
    ts.map Token.render = us.map Token.render := by
  -- what is printed of a token can be made of its content
  have printed := congrArg (List.map fun c => Token.render ⟨c.1, c.2.1, c.2.2, 0⟩) h
  rw [List.map_map, List.map_map] at printed
  exact printed

/-- A text typed in and the same text run as a script give the same tokens, and the same reports on
its lines. -/
theorem interactive_agrees_script (name : String) (debug debug' : Bool) {source : String}
    (small : newlines source.toList ≤ UInt32.size - 2)
    (stays : ∀ line ∈ source.toList.splitOn '\n', line.rdropWhile (· == '\r') ≠ "exit".toList)
    (closed : ∀ line ∈ source.toList.splitOn '\n',
      ∀ r ∈ (scan (String.ofList line)).reports, r.message ≠ "Unterminated string") :
    ∃ lines texts,
      Conversation debug (encode source) lines texts [] false (runInteractive debug (encode source))
        ∧ Shows name debug' (encode source) (runScript name debug' (.ok (encode source)))
        ∧ Agrees source texts (runInteractive debug (encode source))
          (runScript name debug' (.ok (encode source))) := by
  have entered := entered_encode stays
  have lines : Lines newlineByte (encode source) (cut newlineByte (encode source) ++ []) := by
    rw [List.append_nil]
    exact lines_cut _
  have conversation : Conversation debug _ _ _ _ _ _ := conversation_of_lines lines entered .ended
  have shows := shows_runScript name debug' (encode source)
  have closed : ∀ part ∈ source.toList.splitOn '\n', Closed part := by
    intro part mem
    exact closed_of_messages (closed part mem)
  have tokens := map_content_flatMap closed
  refine ⟨_, _, conversation, shows, ?_, ?_, tokens, ?_, ?_⟩
  · rw [conversation.stdout]
    simp only [stdout_typedScript, listing_scan, String.append_assoc]
  · rw [(shows.text source rfl).1, ← listing_scan_eq_outputText, listing_scan]
  · rw [← List.map_flatMap] at tokens ⊢
    exact map_render_of_contents tokens
  · rw [scan_reports]
    exact moved_lines (lines_cut source.toList) closed 0 (by omega)

/-- A comment and a blank line with carriage returns, and reports on the first and the last line. -/
theorem interactive_agrees_script_returns :
    newlines "# // c\r\r\n\r\n\"a\rb\" @".toList ≤ UInt32.size - 2
      ∧ (∀ line ∈ "# // c\r\r\n\r\n\"a\rb\" @".toList.splitOn '\n',
        line.rdropWhile (· == '\r') ≠ "exit".toList)
      ∧ (∀ line ∈ "# // c\r\r\n\r\n\"a\rb\" @".toList.splitOn '\n',
        ∀ r ∈ (scan (String.ofList line)).reports, r.message ≠ "Unterminated string")
      ∧ ∃ lines texts,
        Conversation false (encode "# // c\r\r\n\r\n\"a\rb\" @") lines texts [] false
          (runInteractive false (encode "# // c\r\r\n\r\n\"a\rb\" @"))
        ∧ Agrees "# // c\r\r\n\r\n\"a\rb\" @" texts
          (runInteractive false (encode "# // c\r\r\n\r\n\"a\rb\" @"))
          (runScript "a.lox" true (.ok (encode "# // c\r\r\n\r\n\"a\rb\" @"))) := by
  have small : newlines "# // c\r\r\n\r\n\"a\rb\" @".toList ≤ UInt32.size - 2 := by decide
  have stays : ∀ line ∈ "# // c\r\r\n\r\n\"a\rb\" @".toList.splitOn '\n',
      line.rdropWhile (· == '\r') ≠ "exit".toList := by decide +kernel
  have closed : ∀ line ∈ "# // c\r\r\n\r\n\"a\rb\" @".toList.splitOn '\n',
      ∀ r ∈ (scan (String.ofList line)).reports, r.message ≠ "Unterminated string" := by
    decide +kernel
  obtain ⟨lines, texts, conversation, _, agrees⟩ :=
    interactive_agrees_script "a.lox" false true small stays closed
  exact ⟨small, stays, closed, lines, texts, conversation, agrees⟩

end Command

end Lox
