import Lox.Proofs.Layout
import Lox.Proofs.LineJoin
import Lox.Proofs.Remarks
import Lox.Proofs.Verdicts

/-!
# Annotating a script

What a script shows can be put in front of it as annotations, one comment for each line.  Comments
leave nothing behind but a later start, so the script still shows the same, with its reports as many
lines later as there are comments; and the comments ask for just that.  Nothing else in the annotated
script asks for anything, as long as the script itself has no annotation.
-/

namespace Lox

open Lexical Command

/-! ### A separator before a source -/

/-- After blanks and whole comments a source is scanned as before, on later lines. -/
theorem Lexical.scan_separator {gap : String} (h : gap.toList ∈ separator) (source : String) :
    (scan (gap ++ source)).tokens = (scan source).tokens.map (Token.raise (newlines gap.toList))
      ∧ (scan (gap ++ source)).reports
        = (scan source).reports.map (Report.raise (newlines gap.toList)) := by
  obtain ⟨ss, spells, cut⟩ := skipped_of_separator h
  have own : segments gap.toList = ss := by
    have alone := cut []
    rwa [List.append_nil, segments_nil, List.append_nil] at alone
  have start : lineAfter 1 ss = 1 + UInt32.ofNat (newlines gap.toList) := by
    rw [lineAfter_eq, ← own, texts_segments]
  have noTokens : tokensFrom 1 ss = [] := by
    have contents := map_content_tokensFrom 1 ss
    rw [spells.contents] at contents
    exact List.map_eq_nil_iff.mp contents
  have noReports : reportsFrom 1 ss = [] := (reportsFrom_eq_nil_iff 1 ss).mpr spells.faultless
  refine ⟨?_, ?_⟩
  · rw [scan_tokens, scan_tokens, String.toList_append, cut, tokensFrom_append, noTokens, start,
      tokensFrom_add, lineAfter_append, start, lineAfter_add, List.map_append]
    rfl
  · rw [scan_reports, scan_reports, String.toList_append, cut, reportsFrom_append, noReports, start,
      reportsFrom_add]
    rfl

namespace Conformance

/-! ### The header -/

/-- The line with the number after its first words raised. -/
def raisedLine (k : Nat) (line : String) : String :=
  match afterMark "[line ".toList line.toList with
  | none => line
  | some rest =>
    "[line " ++ Nat.repr (Nat.ofDigitChars 10 (rest.takeWhile Char.isDigit) 0 + k)
      ++ String.ofList (rest.dropWhile Char.isDigit)

def headerSize (o : Outcome) : Nat := (Text.lines o.stdout).length + (Text.lines o.stderr).length + 1

/-- A comment for each line that was shown, and one for the exit code. -/
def headerLines (o : Outcome) : List String :=
  (Text.lines o.stdout).map (fun line => "// expect: " ++ line)
    ++ (Text.lines o.stderr).map (fun line => "// error: " ++ raisedLine (headerSize o) line)
    ++ ["// exit: " ++ Nat.repr o.status.code]

def ended (lines : List String) : String := String.join (lines.map fun line => line ++ "\r\n")

def header (o : Outcome) : String := ended (headerLines o)

theorem toList_ended_cons (line : String) (lines : List String) :
    (ended (line :: lines)).toList
      = line.toList ++ ['\r'] ++ '\n' :: (ended lines).toList := by
  rw [ended, List.map_cons, String.join_cons, String.toList_append, String.toList_append,
    List.append_assoc, List.append_assoc]
  rfl

theorem lines_ended {lines : List String} (single : ∀ line ∈ lines, '\n' ∉ line.toList)
    (source : String) : Text.lines (ended lines ++ source) = lines ++ Text.lines source := by
  induction lines with
  | nil => rw [ended, List.map_nil, String.join_nil, String.empty_append, List.nil_append]
  | cons line lines ih =>
    obtain ⟨here, later⟩ := List.forall_mem_cons.mp single
    have text : ended (line :: lines) ++ source
        = String.ofList ((line.toList ++ ['\r']) ++ '\n' :: (ended lines ++ source).toList) := by
      rw [← String.toList_inj, String.toList_append, toList_ended_cons]
      simp
    have solid : '\n' ∉ line.toList ++ ['\r'] := by simpa using here
    rw [text, Text.lines_newline solid, List.append_assoc, String.ofList_toList, ih later]
    show String.ofList (Text.withoutEnd (line.toList ++ ['\r', '\n'])) :: _ = _
    rw [Text.withoutEnd_crlf, String.ofList_toList]
    rfl

theorem newlines_ended {lines : List String} (single : ∀ line ∈ lines, '\n' ∉ line.toList) :
    newlines (ended lines).toList = lines.length := by
  induction lines with
  | nil => rfl
  | cons line lines ih =>
    obtain ⟨here, later⟩ := List.forall_mem_cons.mp single
    have none : newlines line.toList = 0 := List.count_eq_zero.mpr here
    have carriage : newlines ['\r'] = 0 := rfl
    have next : newlines ('\n' :: (ended lines).toList) = newlines (ended lines).toList + 1 :=
      List.count_cons_self
    rw [toList_ended_cons, newlines_append, newlines_append, none, carriage, next, ih later,
      List.length_cons]
    omega

theorem ended_mem_separator {lines : List String} (single : ∀ line ∈ lines, '\n' ∉ line.toList)
    (comments : ∀ line ∈ lines, ['/', '/'] <+: line.toList) : (ended lines).toList ∈ separator := by
  induction lines with
  | nil => exact nil_mem_separator
  | cons line lines ih =>
    obtain ⟨here, later⟩ := List.forall_mem_cons.mp single
    obtain ⟨⟨body, text⟩, others⟩ := List.forall_mem_cons.mp comments
    have solid : '\n' ∉ body ++ ['\r'] := by
      rw [← text] at here
      simpa using here
    have first := append_mem_separator (comment_mem_separator solid) (ih later others)
    rw [toList_ended_cons, ← text]
    simpa using first

/-! ### The lines of the header -/

theorem newline_notMem_raisedLine {k : Nat} {line : String} (h : '\n' ∉ line.toList) :
    '\n' ∉ (raisedLine k line).toList := by
  unfold raisedLine
  split
  · exact h
  · next rest marked =>
    have number := newline_notMem_repr (Nat.ofDigitChars 10 (rest.takeWhile Char.isDigit) 0 + k)
    have after : '\n' ∉ rest.dropWhile Char.isDigit := by
      intro mem
      rw [afterMark_eq_some_iff.mp marked] at h
      exact h (List.mem_append_right _ ((List.dropWhile_suffix _).subset mem))
    simp only [String.toList_append, List.mem_append, not_or, String.toList_ofList]
    exact ⟨⟨by decide, number⟩, after⟩

theorem headerLine_cases {o : Outcome} {line : String} (h : line ∈ headerLines o) :
    ∃ mark ∈ [expectMark, errorMark, exitMark], ∃ rest, '\n' ∉ rest.toList ∧ line = mark ++ rest := by
  rcases List.mem_append.mp h with shown | exit
  · rcases List.mem_append.mp shown with output | errors
    · obtain ⟨rest, mem, rfl⟩ := List.mem_map.mp output
      exact ⟨expectMark, by simp, rest, Text.newline_notMem_of_mem_lines mem, rfl⟩
    · obtain ⟨rest, mem, rfl⟩ := List.mem_map.mp errors
      have single := Text.newline_notMem_of_mem_lines mem
      exact ⟨errorMark, by simp, _, newline_notMem_raisedLine single, rfl⟩
  · obtain rfl := List.mem_singleton.mp exit
    exact ⟨exitMark, by simp, _, newline_notMem_repr _, rfl⟩

theorem newline_notMem_headerLine {o : Outcome} {line : String} (h : line ∈ headerLines o) :
    '\n' ∉ line.toList := by
  have marks : ∀ mark ∈ [expectMark, errorMark, exitMark], '\n' ∉ mark.toList := by decide
  obtain ⟨mark, known, rest, single, rfl⟩ := headerLine_cases h
  rw [String.toList_append, List.mem_append, not_or]
  exact ⟨marks mark known, single⟩

theorem slashes_headerLine {o : Outcome} {line : String} (h : line ∈ headerLines o) :
    ['/', '/'] <+: line.toList := by
  have marks : ∀ mark ∈ [expectMark, errorMark, exitMark], ['/', '/'] <+: mark.toList := by decide
  obtain ⟨mark, known, rest, _, rfl⟩ := headerLine_cases h
  rw [String.toList_append]
  exact (marks mark known).trans (List.prefix_append _ _)

theorem length_headerLines (o : Outcome) : (headerLines o).length = headerSize o := by
  simp [headerLines, headerSize, Nat.add_assoc]

theorem newlines_header (o : Outcome) : newlines (header o).toList = headerSize o := by
  rw [header, newlines_ended fun _ => newline_notMem_headerLine, length_headerLines]

theorem header_mem_separator (o : Outcome) : (header o).toList ∈ separator :=
  ended_mem_separator (fun _ => newline_notMem_headerLine) (fun _ => slashes_headerLine)

/-! ### What the header asks for -/

/-- What is found in a line by those who look for the three sorts of annotations. -/
structure Reads (line : String) (output errors : Option String) (exit : Option (List Char)) :
    Prop where
  output : remark? expectMark line = output
  errors : remark? errorMark line = errors
  exit : exitRemark? line = exit

theorem remark?_mark (mark line : String) : remark? mark (mark ++ line) = some line := by
  have here : afterMark mark.toList (mark ++ line).toList = some line.toList :=
    afterMark_eq_some_iff.mpr String.toList_append
  rw [remark?, firstMatch_of_some here, Option.map_some, String.ofList_toList]

/-- No mark begins inside another one. -/
theorem remark?_past {mark other : String} (known : (mark, other) ∈ [(expectMark, errorMark),
    (expectMark, exitMark), (errorMark, expectMark), (errorMark, exitMark)]) (line : String) :
    remark? mark (other ++ line) = remark? mark line := by
  simp only [List.mem_cons, Prod.mk.injEq, List.not_mem_nil, or_false] at known
  rw [remark?, remark?, String.toList_append]
  obtain ⟨rfl, rfl⟩ | ⟨rfl, rfl⟩ | ⟨rfl, rfl⟩ | ⟨rfl, rfl⟩ := known <;> rfl

theorem exitRemark?_past {other : String} (known : other ∈ [expectMark, errorMark])
    (line : String) : exitRemark? (other ++ line) = exitRemark? line := by
  simp only [List.mem_cons, List.not_mem_nil, or_false] at known
  rw [exitRemark?, exitRemark?, String.toList_append]
  obtain rfl | rfl := known <;> rfl

section Reads

variable {line : String}

theorem reads_unmarked (h : Unmarked line.toList) : Reads line none none none := by
  obtain ⟨output, errors, exit⟩ := unmarked_iff.mp h
  exact ⟨output, errors, exit⟩

theorem reads_expect (h : Unmarked line.toList) : Reads (expectMark ++ line) (some line) none none where
  output := remark?_mark expectMark line
  errors := (remark?_past (by simp) line).trans (reads_unmarked h).errors
  exit := (exitRemark?_past (by simp) line).trans (reads_unmarked h).exit

theorem reads_error (h : Unmarked line.toList) : Reads (errorMark ++ line) none (some line) none where
  output := (remark?_past (by simp) line).trans (reads_unmarked h).output
  errors := remark?_mark errorMark line
  exit := (exitRemark?_past (by simp) line).trans (reads_unmarked h).exit

theorem reads_exit (n : Nat) :
    Reads (exitMark ++ Nat.repr n) none none (some (Nat.repr n).toList) := by
  have digit : ∀ c ∈ Nat.toDigits 10 n, Text.isDecimalDigit c := by
    intro c mem
    exact Text.isDecimalDigit_of_isDigit (Nat.isDigit_of_mem_toDigits (by decide) (by decide) mem)
  have here : exitDigits? (exitMark ++ Nat.repr n).toList = some (Nat.repr n).toList := by
    rw [String.toList_append, exitDigits?_mark, Nat.toList_repr,
      List.takeWhile_eq_self_iff.mpr digit, if_neg (by simp)]
  have none : (Nat.repr n).toList.count '/' = 0 := by
    rw [Nat.toList_repr]
    exact List.count_eq_zero.mpr (notMem_toDigits rfl)
  obtain ⟨output, errors, _⟩ := reads_unmarked (unmarked_of_count (none.trans_le (Nat.zero_le 1)))
  refine ⟨?_, ?_, firstMatch_of_some here⟩
  · rw [remark?_past (by simp), output]
  · rw [remark?_past (by simp), errors]

end Reads

theorem exitCode?_repr {n : Nat} (small : n < 2147483648) :
    exitCode? (Nat.repr n).toList = some n := by
  rw [exitCode?_eq_some_iff]
  refine ⟨?_, ?_, small⟩
  · intro c mem
    rw [Nat.toList_repr] at mem
    exact isDigit_iff.mp (Nat.isDigit_of_mem_toDigits (by decide) (by decide) mem)
  · rw [Nat.toList_repr, Nat.ofDigitChars_toDigits (by decide) (by decide)]

theorem raisedLine_reportLine {k : Nat} {r : Report}
    (raised : (r.raise k).line.toNat = r.line.toNat + k) :
    raisedLine k (reportLine r) = reportLine (r.raise k) := by
  have text : (reportLine r).toList = "[line ".toList
      ++ (Nat.toDigits 10 r.line.toNat ++ ("] Error: " ++ r.message).toList) := by
    simp [reportLine]
  have digits : ∀ c ∈ Nat.toDigits 10 r.line.toNat, c.isDigit :=
    fun c mem => Nat.isDigit_of_mem_toDigits (by decide) (by decide) mem
  have stops : ∀ c ∈ ("] Error: " ++ r.message).toList.head?, c.isDigit = false := by
    rw [String.toList_append]
    rintro c ⟨⟩
    rfl
  have marked := afterMark_eq_some_iff.mpr text
  simp only [raisedLine, marked, takeWhile_run digits stops, dropWhile_run digits stops]
  rw [Nat.ofDigitChars_toDigits (by decide) (by decide), String.ofList_toList, ← raised]
  simp [reportLine, Report.raise, String.append_assoc]

/-- Whatever is looked for in the lines of an annotated script is found in the header or nowhere. -/
theorem filterMap_annotated {β : Type} {o : Outcome} {source : String} {find : String → Option β}
    {output errors : String → Option β} {exit : Option β}
    (expects : ∀ line ∈ Text.lines o.stdout, find ("// expect: " ++ line) = output line)
    (blames : ∀ line ∈ Text.lines o.stderr,
      find ("// error: " ++ raisedLine (headerSize o) line) = errors line)
    (exits : find ("// exit: " ++ Nat.repr o.status.code) = exit)
    (silent : ∀ line ∈ Text.lines source, find line = none) :
    (Text.lines (header o ++ source)).filterMap find
      = (Text.lines o.stdout).filterMap output ++ (Text.lines o.stderr).filterMap errors
        ++ exit.toList := by
  have cut : Text.lines (header o ++ source) = headerLines o ++ Text.lines source :=
    lines_ended (fun _ => newline_notMem_headerLine) source
  have first : (Text.lines o.stdout).filterMap (find ∘ fun line => "// expect: " ++ line)
      = (Text.lines o.stdout).filterMap output := List.filterMap_congr expects
  have second : (Text.lines o.stderr).filterMap
        (find ∘ fun line => "// error: " ++ raisedLine (headerSize o) line)
      = (Text.lines o.stderr).filterMap errors := List.filterMap_congr blames
  have last : ["// exit: " ++ Nat.repr o.status.code].filterMap find = exit.toList := by
    rw [List.filterMap_cons, exits]
    cases exit <;> rfl
  rw [cut, headerLines, List.filterMap_append, List.filterMap_append, List.filterMap_append,
    List.filterMap_map, List.filterMap_map, List.filterMap_eq_nil_iff.mpr silent, List.append_nil,
    first, second, last]

theorem expectation_annotated {o : Outcome} {source : String}
    (output : ∀ line ∈ Text.lines o.stdout, Unmarked line.toList)
    (errors : ∀ line ∈ Text.lines o.stderr, Unmarked (raisedLine (headerSize o) line).toList)
    (plain : ∀ line ∈ Text.lines source, Unmarked line.toList) :
    expectation (header o ++ source)
      = ⟨Text.lines o.stdout, (Text.lines o.stderr).map (raisedLine (headerSize o)),
        o.status.code⟩ := by
  have expects := fun line mem => reads_expect (output line mem)
  have blames := fun line mem => reads_error (errors line mem)
  have exit := reads_exit o.status.code
  have silent := fun line mem => reads_unmarked (plain line mem)
  have small : o.status.code < 2147483648 := by cases o.status <;> decide
  have outputs := filterMap_annotated (fun l h => (expects l h).output)
    (fun l h => (blames l h).output) exit.output (fun l h => (silent l h).output)
  have reports := filterMap_annotated (fun l h => (expects l h).errors)
    (fun l h => (blames l h).errors) exit.errors (fun l h => (silent l h).errors)
  have codes := filterMap_annotated (fun l h => (expects l h).exit)
    (fun l h => (blames l h).exit) exit.exit (fun l h => (silent l h).exit)
  have code := exitCode?_repr small
  rw [Nat.toList_repr] at code
  simp [expectation, outputs, reports, codes, code]

/-! ### Running what was annotated -/

theorem shownAt_eq (name source : String) :
    shownAt (pathOf name) source
      = ⟨if (scan source).reports.isEmpty then .success else .dataError,
        listing (scan source).tokens, String.join ((scan source).reports.map Report.render)⟩ := by
  rw [shownAt_pathOf, listSource_eq, errorText_eq]
  exact congrArg _ String.append_empty

section Annotated

variable {draft source : String} {o : Outcome}

/-- An annotated script shows what it showed before, with its reports on later lines. -/
theorem shown_annotated (name : String) (shown : o = shownAt (pathOf draft) source)
    (small : newlines (header o ++ source).toList ≤ UInt32.size - 2) :
    (shownAt (pathOf name) (header o ++ source)).stdout = o.stdout
      ∧ Text.lines (shownAt (pathOf name) (header o ++ source)).stderr
        = (Text.lines o.stderr).map (raisedLine (headerSize o))
      ∧ (shownAt (pathOf name) (header o ++ source)).status = o.status := by
  obtain ⟨tokens, reports⟩ := scan_separator (header_mem_separator o) source
  rw [newlines_header] at tokens reports
  have later : newlines source.toList + headerSize o ≤ UInt32.size - 2 := by
    rw [String.toList_append, newlines_append, newlines_header] at small
    omega
  have stdout : o.stdout = listing (scan source).tokens := by rw [shown, shownAt_eq]
  have stderr : Text.lines o.stderr = (scan source).reports.map reportLine := by
    rw [shown, shownAt_eq]
    exact lines_reports fun _ => id
  have status : o.status = if (scan source).reports.isEmpty then .success else .dataError := by
    rw [shown, shownAt_eq]
  rw [shownAt_eq]
  refine ⟨?_, ?_, ?_⟩
  · rw [stdout]
    apply listing_of_contents
    rw [tokens, List.map_map]
    rfl
  · have raised : (scan source).reports.map (raisedLine (headerSize o) ∘ reportLine)
        = (scan source).reports.map (reportLine ∘ Report.raise (headerSize o)) :=
      List.map_congr_left fun r mem => raisedLine_reportLine (toNat_raise_report mem later)
    show Text.lines (String.join ((scan (header o ++ source)).reports.map Report.render)) = _
    rw [lines_reports fun _ => id, reports, stderr, List.map_map, List.map_map, raised]
  · rw [status, reports, List.isEmpty_map]

theorem passes_annotated (name : String) (shown : o = shownAt (pathOf draft) source)
    (plain : ∀ line ∈ Text.lines source, Unmarked line.toList)
    (small : newlines (header o ++ source).toList ≤ UInt32.size - 2) :
    Passes name (header o ++ source) := by
  obtain ⟨stdout, stderr, status⟩ := shown_annotated name shown small
  have output : ∀ line ∈ Text.lines o.stdout, Unmarked line.toList := by
    rw [shown, shownAt_eq]
    exact unmarked_lines.mpr (unmarked_scan (unmarked_lines.mp plain))
  have errors : ∀ line ∈ Text.lines o.stderr, Unmarked (raisedLine (headerSize o) line).toList := by
    intro line mem
    have raised := List.mem_map_of_mem (f := raisedLine (headerSize o)) mem
    rw [← stderr, shownAt_eq, lines_reports fun _ => id] at raised
    obtain ⟨r, reported, same⟩ := List.mem_map.mp raised
    rw [← same]
    exact unmarked_reportLine reported
  rw [Passes, wants_iff, stdout, stderr, status]
  exact expectation_annotated output errors plain

end Annotated

theorem runSuite_single {name source : String} (passes : Passes name source) :
    runSuite (some ⟨[(name, .file (Text.encode source))]⟩)
      = ⟨.success, "Running test: " ++ name ++ " ... pass!\n", ""⟩ := by
  have run := runEntries_text false (name, source) []
  rw [complaints_eq_nil_iff.mpr passes, (judged_report name source).pass passes] at run
  rw [runSuite, inOrder, List.mergeSort_singleton]
  refine run.trans ?_
  show (⟨.success, "Running test: " ++ name ++ " ... pass!\n" ++ "", ""⟩ : Outcome) = _
  rw [String.append_empty]

/-- A script in which no line is an annotation passes when it has been annotated with what it shows. -/
theorem runSuite_annotated (draft name source : String)
    (plain : ∀ line ∈ Text.lines source, ∀ p ∈ [expectPattern, errorPattern, exitPattern],
      ∀ run, ¬ p.Captures line run)
    (small : newlines (header (shownAt (pathOf draft) source) ++ source).toList
      ≤ UInt32.size - 2) :
    runSuite (some ⟨[(name,
        .file (Text.encode (header (shownAt (pathOf draft) source) ++ source)))]⟩)
      = ⟨.success, "Running test: " ++ name ++ " ... pass!\n", ""⟩ := by
  apply runSuite_single
  refine passes_annotated name rfl ?_ small
  intro line mem
  exact (not_captures_iff (Text.newline_notMem_of_mem_lines mem)).mp (plain line mem)

/-- A string over two lines, with a mark but no code in it, then a foreign character and a string
that is never closed. -/
theorem runSuite_annotated_string :
    (∀ line ∈ Text.lines "\"a\r\r\n// exit: \" @\n\"x",
        ∀ p ∈ [expectPattern, errorPattern, exitPattern], ∀ run, ¬ p.Captures line run)
      ∧ newlines (header (shownAt (pathOf "a.lox") "\"a\r\r\n// exit: \" @\n\"x")
        ++ "\"a\r\r\n// exit: \" @\n\"x").toList ≤ UInt32.size - 2
      ∧ runSuite (some ⟨[("b.lox", .file (Text.encode
          (header (shownAt (pathOf "a.lox") "\"a\r\r\n// exit: \" @\n\"x")
            ++ "\"a\r\r\n// exit: \" @\n\"x")))]⟩)
        = ⟨.success, "Running test: b.lox ... pass!\n", ""⟩ := by
  have plain : ∀ line ∈ Text.lines "\"a\r\r\n// exit: \" @\n\"x",
      ∀ p ∈ [expectPattern, errorPattern, exitPattern], ∀ run, ¬ p.Captures line run := by
    intro line mem
    apply (not_captures_iff (Text.newline_notMem_of_mem_lines mem)).mpr
    have lines : Text.lines "\"a\r\r\n// exit: \" @\n\"x" = ["\"a\r", "// exit: \" @", "\"x"] := by
      decide +kernel
    have none : ∀ text ∈ ["\"a\r", "// exit: \" @", "\"x"], remark? expectMark text = none
        ∧ remark? errorMark text = none ∧ exitRemark? text = none := by decide +kernel
    exact unmarked_iff.mpr (none line (lines ▸ mem))
  have small : newlines (header (shownAt (pathOf "a.lox") "\"a\r\r\n// exit: \" @\n\"x")
      ++ "\"a\r\r\n// exit: \" @\n\"x").toList ≤ UInt32.size - 2 := by
    have size : headerSize (shownAt (pathOf "a.lox") "\"a\r\r\n// exit: \" @\n\"x") = 7 := by
      decide +kernel
    rw [String.toList_append, newlines_append, newlines_header, size]
    decide
  exact ⟨plain, small, runSuite_annotated "a.lox" "b.lox" _ plain small⟩

example : header (shownAt (pathOf "a.lox") "@\n")
    = "// expect: EOF\r\n// error: [line 4] Error: Unexpected character '@'\r\n// exit: 65\r\n" := by
  decide +kernel

end Conformance

end Lox
