import Lox.Proofs.Captures
import Lox.Proofs.Listing
import Lox.Proofs.ScriptRun

/-!
# Annotations in what a script shows

A string is listed as it stands, and what stands in it may look like an annotation.  But the text
that makes an annotation has two slashes in a row, no quote and no line end in it.  In a listing it
can only stand in the text of a string, where the source has it too; a report has no slash at all.
So a script without annotations shows none.
-/

namespace Lox

/-! ### One text inside another -/

section Infix

variable {α : Type} {w a b : List α} {x : α}

theorem prefix_cons_of_notMem (h : w <+: x :: b) (hx : x ∉ w) : w = [] := by
  rcases List.prefix_cons_iff.mp h with empty | ⟨tail, rfl, _⟩
  · exact empty
  · exact absurd List.mem_cons_self hx

/-- A text without `x` that stands in a longer one stands before or after any given `x`. -/
theorem infix_append_cons (h : w <:+: a ++ x :: b) (hx : x ∉ w) : w <:+: a ∨ w <:+: b := by
  rcases List.infix_append_iff.mp h with before | after | ⟨l, r, rfl, ends, begins⟩
  · exact .inl before
  · rcases List.infix_cons_iff.mp after with begins | inside
    · rw [prefix_cons_of_notMem begins hx]
      exact .inl List.nil_infix
    · exact .inr inside
  · have apart : x ∉ r := fun mem => hx (List.mem_append_right l mem)
    rw [prefix_cons_of_notMem begins apart, List.append_nil]
    exact .inl ends.isInfix

theorem notMem_of_any {c : Char} {cs text : List Char} (hc : c ∈ cs)
    (h : cs.any text.contains = false) : c ∉ text := by
  intro mem
  exact List.any_eq_false.mp h c hc (List.contains_iff_mem.mpr mem)

end Infix

namespace Conformance

open Lexical Command

/-! ### Cues -/

/-- The least texts that the patterns fit. -/
inductive Cue : List Char → Prop
  | expect : Cue expectMark.toList
  | error : Cue errorMark.toList
  | exit {d : Char} (hd : Text.isDecimalDigit d) : Cue (exitMark.toList ++ [d])

def Unmarked (text : List Char) : Prop := ∀ word, Cue word → ¬ word <:+: text

namespace Cue

variable {word : List Char}

theorem slashes (h : Cue word) : ['/', '/'] <+: word := by
  cases h with
  | expect => exact ⟨" expect: ".toList, rfl⟩
  | error => exact ⟨" error: ".toList, rfl⟩
  | exit hd => exact ⟨" exit: ".toList ++ [_], rfl⟩

theorem notMem {c : Char} (h : Cue word) (hc : c ∈ ['\n', '\r', '"']) : c ∉ word := by
  have digits : ['\n', '\r', '"'].any Text.isDecimalDigit = false := by decide
  cases h with
  | expect => exact notMem_of_any hc (by decide)
  | error => exact notMem_of_any hc (by decide)
  | exit hd =>
    rw [List.mem_append, List.mem_singleton, not_or]
    refine ⟨notMem_of_any hc (by decide), ?_⟩
    rintro rfl
    exact List.any_eq_false.mp digits c hc hd

theorem two_le_count (h : Cue word) {text : List Char} (found : word <:+: text) :
    2 ≤ text.count '/' := by
  have sub := (h.slashes.isInfix.trans found).sublist.count_le '/'
  exact sub

end Cue

theorem unmarked_of_count {text : List Char} (h : text.count '/' ≤ 1) : Unmarked text := by
  intro word cue found
  have two := cue.two_le_count found
  omega

/-! ### Lines -/

theorem infix_withoutEnd {word body : List Char} (h : Cue word) (found : word <:+: body) :
    word <:+: Text.withoutEnd (body ++ ['\n']) := by
  rw [Text.withoutEnd_newline]
  cases returned : Text.dropLastChar? '\r' body with
  | none => exact found
  | some rest =>
    rw [Text.dropLastChar?_eq_some_iff.mp returned] at found
    rcases infix_append_cons found (h.notMem (by simp)) with before | after
    · exact before
    · exact after.trans List.nil_infix

theorem unmarked_lines {s : String} :
    (∀ line ∈ Text.lines s, Unmarked line.toList) ↔ Unmarked s.toList := by
  obtain ⟨cs, rfl⟩ : ∃ cs, s = String.ofList cs := ⟨s.toList, s.ofList_toList.symm⟩
  rw [String.toList_ofList]
  induction cs using Text.lines_induction with
  | nil => exact iff_of_true nofun (unmarked_of_count (by decide))
  | last text filled unended =>
    rw [Text.lines_last filled unended, List.forall_mem_singleton, String.toList_ofList]
  | line body rest solid ih =>
    rw [Text.lines_newline solid, List.forall_mem_cons, ih, String.toList_ofList]
    constructor
    · rintro ⟨here, later⟩ word cue found
      rcases infix_append_cons found (cue.notMem (by simp)) with before | after
      · exact here word cue (infix_withoutEnd cue before)
      · exact later word cue after
    · intro whole
      refine ⟨?_, ?_⟩
      · intro word cue found
        have begins := (Text.withoutEnd_newline_prefix_body body).trans
          (List.prefix_append body ('\n' :: rest))
        exact whole word cue (found.trans begins.isInfix)
      · intro word cue found
        have ends : rest <:+ body ++ '\n' :: rest := ⟨body ++ ['\n'], by simp⟩
        exact whole word cue (found.trans ends.isInfix)

/-! ### Searching for annotations -/

theorem remark?_eq_none_iff {mark line : String} :
    remark? mark line = none ↔ ¬ mark.toList <:+: line.toList := by
  have here (other : List Char) :
      afterMark mark.toList other = none ↔ ¬ mark.toList <+: other := by
    simp [afterMark, List.isPrefixOf_iff_prefix]
  rw [remark?, Option.map_eq_none_iff, firstMatch_eq_none_iff, List.infix_iff_prefix_suffix]
  simp only [here, not_exists, not_and']

theorem exitDigits?_eq_none_iff {text : List Char} :
    exitDigits? text = none
      ↔ ∀ d, Text.isDecimalDigit d → ¬ exitMark.toList ++ [d] <+: text := by
  constructor
  · rintro none d hd ⟨rest, rfl⟩
    rw [List.append_assoc, exitDigits?_mark] at none
    simp [hd] at none
  · intro other
    by_contra some
    obtain ⟨run, value⟩ := Option.ne_none_iff_exists'.mp some
    obtain ⟨⟨rest, rfl, _⟩, digits, long⟩ := fits_exit.mpr value
    obtain ⟨d, run, rfl⟩ := List.exists_cons_of_length_pos long
    refine other d (digits d List.mem_cons_self) ⟨run ++ rest, ?_⟩
    rw [List.append_assoc]
    rfl

theorem exitRemark?_eq_none_iff {line : String} :
    exitRemark? line = none
      ↔ ∀ d, Text.isDecimalDigit d → ¬ exitMark.toList ++ [d] <:+: line.toList := by
  rw [exitRemark?, firstMatch_eq_none_iff]
  simp only [exitDigits?_eq_none_iff, List.infix_iff_prefix_suffix]
  constructor
  · rintro none d hd ⟨other, begins, ends⟩
    exact none other ends d hd begins
  · intro none other ends d hd begins
    exact none d hd ⟨other, begins, ends⟩

theorem unmarked_iff {line : String} :
    Unmarked line.toList ↔ remark? expectMark line = none ∧ remark? errorMark line = none
      ∧ exitRemark? line = none := by
  rw [remark?_eq_none_iff, remark?_eq_none_iff, exitRemark?_eq_none_iff]
  constructor
  · intro free
    exact ⟨free _ .expect, free _ .error, fun d hd => free _ (.exit hd)⟩
  · rintro ⟨expect, error, exit⟩ word cue
    cases cue with
    | expect => exact expect
    | error => exact error
    | exit hd => exact exit _ hd

theorem not_captures_iff {line : String} (single : '\n' ∉ line.toList) :
    (∀ p ∈ [expectPattern, errorPattern, exitPattern], ∀ run, ¬ p.Captures line run)
      ↔ Unmarked line.toList := by
  have expect : (∀ run, ¬ expectPattern.Captures line run) ↔ remark? expectMark line = none := by
    rw [Option.eq_none_iff_forall_ne_some]
    exact forall_congr' fun run => not_congr (remark?_eq_some_iff single).symm
  have error : (∀ run, ¬ errorPattern.Captures line run) ↔ remark? errorMark line = none := by
    rw [Option.eq_none_iff_forall_ne_some]
    exact forall_congr' fun run => not_congr (remark?_eq_some_iff single).symm
  have exit : (∀ run, ¬ exitPattern.Captures line run) ↔ exitRemark? line = none := by
    rw [← Option.map_eq_none_iff (f := String.ofList), Option.eq_none_iff_forall_ne_some]
    exact forall_congr' fun run => not_congr exitRemark?_eq_some_iff.symm
  rw [List.forall_mem_cons, List.forall_mem_cons, List.forall_mem_singleton, expect, error, exit,
    unmarked_iff]

/-! ### Listings -/

theorem slash_notMem_plain (d : Decimal) : '/' ∉ d.plain := by
  have whole (n : Nat) : '/' ∉ Nat.toDigits 10 n := notMem_toDigits rfl
  have places (n : Nat) : '/' ∉ (Nat.toDigits 10 n).drop 1 :=
    fun mem => whole n (List.mem_of_mem_drop mem)
  unfold Decimal.plain
  split
  · rw [List.mem_append, List.mem_cons, not_or, not_or]
    exact ⟨whole _, by decide, places _⟩
  · rw [List.mem_append, not_or]
    exact ⟨whole _, by decide⟩

theorem slash_notMem_scientific (d : Decimal) : '/' ∉ d.scientific := by
  have whole (n : Nat) : '/' ∉ Nat.toDigits 10 n := notMem_toDigits rfl
  have lead : '/' ∉ (Nat.toDigits 10 d.coefficient).take 1 :=
    fun mem => whole _ (List.mem_of_mem_take mem)
  have places : '/' ∉ (Nat.toDigits 10 d.coefficient).drop 1 :=
    fun mem => whole _ (List.mem_of_mem_drop mem)
  unfold Decimal.scientific
  simp only [List.mem_append, List.mem_cons, not_or]
  refine ⟨⟨⟨lead, ?_⟩, ?_⟩, whole _⟩
  · split
    · exact List.not_mem_nil
    · rw [List.mem_cons, not_or]
      exact ⟨by decide, places⟩
  · split <;> decide

theorem slash_notMem_text (x : Binary64) : '/' ∉ x.text.toList := by
  have digits : '/' ∉ x.digitsText := by
    unfold Binary64.digitsText
    split
    · exact slash_notMem_plain _
    · exact slash_notMem_scientific _
  unfold Binary64.text
  split
  · decide
  · rw [String.toList_append, List.mem_append, not_or]
    refine ⟨?_, ?_⟩
    · split <;> decide
    · split
      · decide
      · rwa [String.toList_ofList]

theorem count_slash_lexeme {kind : Kind} {characters : List Char} (h : IsLexeme kind characters)
    (other : kind ≠ .string) : characters.count '/' ≤ 1 := by
  rcases symbol_or_plain h other with listed | plain
  · have all : ∀ s ∈ symbols, s.1.count '/' ≤ 1 := by decide
    exact all _ listed
  · have none : characters.count '/' = 0 := by
      rw [List.count_eq_zero]
      intro mem
      have slash := plain '/' mem
      contradiction
    rw [none]
    exact Nat.zero_le 1

theorem slash_notMem_valueText {kind : Kind} (other : kind ≠ .string) (characters : List Char) :
    '/' ∉ valueText kind characters := by
  by_cases number : kind = .number
  · have digits := slash_notMem_text (Decimal.ofText characters).round
    rw [number]
    show '/' ∉ ' ' :: (Decimal.ofText characters).round.text.toList
    rw [List.mem_cons, not_or]
    exact ⟨by decide, digits⟩
  · have none : literalOf kind characters = none := by
      unfold literalOf
      split
      · contradiction
      · contradiction
      · rfl
    simp [valueText, none]

/-- Of what one token leaves in a listing, only the text of a string can have a cue in it. -/
theorem unmarked_render {t : Token} (h : Wellformed t) (lexeme : Unmarked t.lexeme.toList) :
    Unmarked t.render.toList := by
  have name : '/' ∉ t.kind.name.toList := by
    have all : ∀ l ∈ Kind.all, '/' ∉ l.name.toList := by decide +kernel
    exact all _ (Kind.mem_all _)
  intro word cue found
  rw [h.toList_render] at found
  by_cases string : t.kind = .string
  · obtain ⟨body, text, _⟩ := exists_body_of_string (string ▸ h.isLexeme)
    have value : valueText t.kind t.lexeme.toList = ' ' :: body := by
      rw [valueText, string, text]
      simp [literalOf, Literal.render]
    have inside : ¬ word <:+: body := by
      intro within
      have part : body <:+: t.lexeme.toList := ⟨['"'], ['"'], by rw [text]; rfl⟩
      exact lexeme word cue (within.trans part)
    have quote : '"' ∉ word := cue.notMem (by simp)
    have quoted : t.kind.name.toList ++ ' ' :: (t.lexeme.toList ++ valueText t.kind t.lexeme.toList)
        = (t.kind.name.toList ++ [' ']) ++ '"' :: (body ++ '"' :: ' ' :: body) := by
      rw [value, text]
      simp
    rw [quoted] at found
    rcases infix_append_cons found quote with before | after
    · have two := cue.two_le_count before
      rw [List.count_append, List.count_eq_zero.mpr name] at two
      contradiction
    · rcases infix_append_cons after quote with within | last
      · exact inside within
      · rcases List.infix_cons_iff.mp last with begins | within
        · obtain ⟨_, blank⟩ := cue.slashes.trans begins
          cases blank
        · exact inside within
  · have two := cue.two_le_count found
    have one := count_slash_lexeme h.isLexeme string
    have value := List.count_eq_zero.mpr (slash_notMem_valueText string t.lexeme.toList)
    rw [List.count_append, List.count_eq_zero.mpr name, List.count_cons_of_ne (by decide),
      List.count_append, value] at two
    omega

theorem unmarked_listing {ts : List Token} (h : ∀ t ∈ ts, Unmarked t.render.toList) :
    Unmarked (listing ts).toList := by
  induction ts with
  | nil => exact unmarked_of_count (by decide)
  | cons t ts ih =>
    obtain ⟨here, later⟩ := List.forall_mem_cons.mp h
    intro word cue found
    rw [toList_listing_cons] at found
    rcases infix_append_cons found (cue.notMem (by simp)) with within | after
    · exact here word cue within
    · exact ih later word cue after

theorem infix_of_mem_segments {cs : List Char} {seg : Segment} (h : seg ∈ segments cs) :
    seg.text <:+: cs := by
  have part : seg.text <:+: ((segments cs).map Segment.text).flatten :=
    List.infix_of_mem_flatten (List.mem_map_of_mem h)
  rwa [← List.flatMap_def, texts_segments] at part

/-- A listing has no annotation in it unless the source has one. -/
theorem unmarked_scan {source : String} (h : Unmarked source.toList) :
    Unmarked (listing (scan source).tokens).toList := by
  apply unmarked_listing
  intro t mem
  rw [scan_tokens] at mem
  rcases List.mem_append.mp mem with inside | final
  · apply unmarked_render (wellformed_of_mem inside)
    obtain ⟨kind, characters, line, found, rfl⟩ := exists_lexeme_of_mem inside
    have part := infix_of_mem_segments found
    intro word cue within
    rw [tokenOf, String.toList_ofList] at within
    exact h word cue (within.trans part)
  · rw [List.mem_singleton.mp final, Token.render_endOfSource]
    exact unmarked_of_count (by decide)

/-! ### Reports -/

def reportLine (r : Report) : String := "[line " ++ Nat.repr r.line.toNat ++ "] Error: " ++ r.message

theorem exists_segment_of_mem_reportsFrom {r : Report} {line : UInt32} {ss : List Segment}
    (h : r ∈ reportsFrom line ss) : ∃ s ∈ ss, ∃ line', s.report? line' = some r := by
  induction ss generalizing line with
  | nil => contradiction
  | cons s rest ih =>
    rcases List.mem_append.mp h with here | later
    · exact ⟨s, List.mem_cons_self, _, Option.mem_toList.mp here⟩
    · obtain ⟨s', mem, reported⟩ := ih later
      exact ⟨s', List.mem_cons_of_mem s mem, reported⟩

theorem notMem_message {source : String} {r : Report} (h : r ∈ (scan source).reports) {c : Char}
    (hc : c ∈ ['\n', '\r', '/']) : c ∉ r.message.toList := by
  rw [scan_reports] at h
  obtain ⟨s, mem, line, reported⟩ := exists_segment_of_mem_reportsFrom h
  obtain ⟨rest, ends⟩ := exists_endsBefore_of_mem mem
  cases ends with
  | @foreign d _ hd =>
    have known : .foreign ∉ ['\n', '\r', '/'].map classify := by decide
    have other : c ≠ d := by
      rintro rfl
      exact known (hd ▸ List.mem_map_of_mem hc)
    obtain rfl := Option.some.inj reported
    show c ∉ ("Unexpected character '" ++ d.toString ++ "'").toList
    simp only [String.toList_append, List.mem_append, not_or]
    exact ⟨⟨notMem_of_any hc (by decide), by simpa using other⟩, notMem_of_any hc (by decide)⟩
  | openString hbody =>
    obtain rfl := Option.some.inj reported
    show c ∉ "Unterminated string".toList
    exact notMem_of_any hc (by decide)
  | _ => contradiction

/-- A report is a single line without any slash. -/
theorem notMem_reportLine {source : String} {r : Report} (h : r ∈ (scan source).reports) {c : Char}
    (hc : c ∈ ['\n', '\r', '/']) : c ∉ (reportLine r).toList := by
  have number : c ∉ (Nat.repr r.line.toNat).toList := by
    have digits : ['\n', '\r', '/'].any Char.isDigit = false := by decide
    rw [Nat.toList_repr]
    exact notMem_toDigits (Bool.eq_false_of_not_eq_true (List.any_eq_false.mp digits c hc))
  simp only [reportLine, String.toList_append, List.mem_append, not_or]
  exact ⟨⟨⟨notMem_of_any hc (by decide), number⟩, notMem_of_any hc (by decide)⟩,
    notMem_message h hc⟩

theorem unmarked_reportLine {source : String} {r : Report} (h : r ∈ (scan source).reports) :
    Unmarked (reportLine r).toList := by
  have none := List.count_eq_zero.mpr (notMem_reportLine h (c := '/') (by simp))
  exact unmarked_of_count (by omega)

/-- The error stream of a script falls into one line for each report. -/
theorem lines_reports {source : String} {reports : List Report}
    (h : ∀ r ∈ reports, r ∈ (scan source).reports) :
    Text.lines (String.join (reports.map Report.render)) = reports.map reportLine := by
  induction reports with
  | nil => rfl
  | cons r rs ih =>
    obtain ⟨here, later⟩ := List.forall_mem_cons.mp h
    have text : String.join ((r :: rs).map Report.render)
        = String.ofList ((reportLine r).toList
          ++ '\n' :: (String.join (rs.map Report.render)).toList) := by
      rw [List.map_cons, String.join_cons, ← String.toList_inj]
      simp [Report.render, reportLine]
    have ends := Text.withoutEnd_newline (reportLine r).toList
    rw [Text.dropLastChar?_of_notMem (notMem_reportLine here (by simp))] at ends
    rw [text, Text.lines_newline (notMem_reportLine here (by simp)), ends, String.ofList_toList,
      Option.getD_none, String.ofList_toList, ih later, List.map_cons]

end Conformance

end Lox
