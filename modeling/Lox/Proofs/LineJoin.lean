import Lox.Proofs.Reading

/-!
# Sources joined by a line end

A line end closes every segment that the end of the source closes, except a string.  So a scan of
two texts with a line end between them is the one scan and then the other, and nothing but the line
counter passes from the first text to the second.
-/

namespace Lox

def Token.raise (k : Nat) (t : Token) : Token := { t with line := t.line + UInt32.ofNat k }

def Report.raise (k : Nat) (r : Report) : Report := { r with line := r.line + UInt32.ofNat k }

namespace Lexical

/-! ### A blank after the source -/

theorem plain_of_isBlank {c : Char} (hc : isBlank c) :
    isWordChar c = false ∧ c.isDigit = false ∧ c ≠ '=' ∧ c ≠ '/' ∧ c ≠ '.' := by
  rcases isBlank_iff.mp hc with rfl | rfl | rfl | rfl <;> decide

section Blank

variable {e : Char} {rest b : List Char}

theorem head?_append_cons {P : Char → Prop} (hrest : ∀ c ∈ rest.head?, P c) (he : P e) :
    ∀ c ∈ (rest ++ e :: b).head?, P c := by
  intro c hc
  cases rest with
  | nil =>
    cases hc
    exact he
  | cons d ds => exact hrest c hc

theorem head?_append_cons_ne {a : Char} (hrest : rest.head? ≠ some a) (he : e ≠ a) :
    (rest ++ e :: b).head? ≠ some a := by
  intro starts
  cases rest with
  | nil =>
    cases starts
    exact he rfl
  | cons d ds => exact hrest starts

theorem digit_after_point_append_cons
    (hpoint : ∀ d tail, rest = '.' :: d :: tail → d.isDigit = false) (notPoint : e ≠ '.')
    (notDigit : e.isDigit = false) :
    ∀ d tail, rest ++ e :: b = '.' :: d :: tail → d.isDigit = false := by
  intro d tail same
  cases rest with
  | nil => exact absurd (List.cons.inj same).1 notPoint
  | cons c cs =>
    obtain ⟨rfl, next⟩ := List.cons.inj same
    cases cs with
    | nil =>
      obtain ⟨rfl, _⟩ := List.cons.inj next
      exact notDigit
    | cons f fs =>
      obtain ⟨rfl, _⟩ := List.cons.inj next
      exact hpoint f fs rfl

/-- A blank goes on with no segment but an open string and, unless it is a line end, a comment. -/
theorem Segment.EndsBefore.append_blank {seg : Segment} (h : seg.EndsBefore rest) (he : isBlank e)
    (closed : ∀ body, seg ≠ .openString body)
    (uncommented : ∀ body, seg = .comment body → rest ≠ [] ∨ e = '\n') (b : List Char) :
    seg.EndsBefore (rest ++ e :: b) := by
  obtain ⟨notWord, notDigit, notEqual, notSlash, notPoint⟩ := plain_of_isBlank he
  cases h with
  | blank hc => exact .blank hc
  | @comment body _ hbody hrest =>
    refine .comment hbody ?_
    rcases uncommented body rfl with filled | newline
    · obtain ⟨f, fs, rfl⟩ := List.exists_cons_of_ne_nil filled
      exact hrest
    · exact head?_append_cons hrest newline
  | punctuator hc => exact .punctuator hc
  | alone hc hrest => exact .alone hc (head?_append_cons_ne hrest notEqual)
  | withEqual hc => exact .withEqual hc
  | slash hrest => exact .slash (head?_append_cons_ne hrest notSlash)
  | word hc hcs hrest => exact .word hc hcs (head?_append_cons hrest notWord)
  | whole hc hcs hrest hpoint =>
    have point := digit_after_point_append_cons (b := b) hpoint notPoint notDigit
    exact .whole hc hcs (head?_append_cons hrest notDigit) point
  | decimal hc hcs hd hds hrest =>
    exact .decimal hc hcs hd hds (head?_append_cons hrest notDigit)
  | string hbody => exact .string hbody
  | foreign hc => exact .foreign hc
  | openString hbody => exact absurd rfl (closed _)

end Blank

theorem segments_append_newline (a b : List Char)
    (closed : ∀ body, Segment.openString body ∉ segments a) :
    segments (a ++ '\n' :: b) = segments a ++ .blank '\n' :: segments b := by
  induction a using source_induction with
  | nil =>
    have ends : (Segment.blank '\n').EndsBefore b := .blank rfl
    have cut := segments_append ends
    rw [segments_nil]
    exact cut
  | cut seg rest ends ih =>
    rw [segments_append ends] at closed
    have here : ∀ body, seg ≠ .openString body := by
      intro body same
      exact closed body (same ▸ List.mem_cons_self)
    have later : ∀ body, Segment.openString body ∉ segments rest := by
      intro body mem
      exact closed body (List.mem_cons_of_mem seg mem)
    have cut := segments_append (ends.append_blank rfl here (fun _ _ => .inr rfl) b)
    rw [segments_append ends, List.append_assoc, cut, ih later, List.cons_append]

/-! ### A later start -/

theorem lineAfter_add (line k : UInt32) (ss : List Segment) :
    lineAfter (line + k) ss = lineAfter line ss + k := by
  rw [lineAfter_eq, lineAfter_eq]
  ac_rfl

theorem token?_add (line : UInt32) (k : Nat) (s : Segment) :
    s.token? (line + UInt32.ofNat k) = (s.token? line).map (Token.raise k) := by
  cases s <;> rfl

theorem report?_add (line : UInt32) (k : Nat) (s : Segment) :
    s.report? (line + UInt32.ofNat k) = (s.report? line).map (Report.raise k) := by
  cases s <;> rfl

theorem tokensFrom_add (line : UInt32) (k : Nat) (ss : List Segment) :
    tokensFrom (line + UInt32.ofNat k) ss = (tokensFrom line ss).map (Token.raise k) := by
  induction ss generalizing line with
  | nil => rfl
  | cons s rest ih =>
    have moved : line + UInt32.ofNat k + s.lineEnds = line + s.lineEnds + UInt32.ofNat k := by
      ac_rfl
    have here := token?_add (line + s.lineEnds) k s
    rw [tokensFrom, tokensFrom, moved, here, ih, List.map_append]
    cases s.token? (line + s.lineEnds) <;> rfl

theorem reportsFrom_add (line : UInt32) (k : Nat) (ss : List Segment) :
    reportsFrom (line + UInt32.ofNat k) ss = (reportsFrom line ss).map (Report.raise k) := by
  induction ss generalizing line with
  | nil => rfl
  | cons s rest ih =>
    have moved : line + UInt32.ofNat k + s.lineEnds = line + s.lineEnds + UInt32.ofNat k := by
      ac_rfl
    have here := report?_add (line + s.lineEnds) k s
    rw [reportsFrom, reportsFrom, moved, here, ih, List.map_append]
    cases s.report? (line + s.lineEnds) <;> rfl

/-! ### The lines reached -/

theorem line_of_mem_tokensFrom {line : UInt32} {ss : List Segment} {t : Token}
    (h : t ∈ tokensFrom line ss) :
    ∃ before after, ss = before ++ after ∧ t.line = lineAfter line before := by
  induction ss generalizing line with
  | nil => contradiction
  | cons s rest ih =>
    rcases List.mem_append.mp h with here | later
    · cases s with
      | lexeme kind characters =>
        obtain rfl := List.mem_singleton.mp here
        exact ⟨[.lexeme kind characters], rest, rfl, rfl⟩
      | _ => contradiction
    · obtain ⟨before, after, rfl, reached⟩ := ih later
      exact ⟨s :: before, after, rfl, reached⟩

theorem line_of_mem_reportsFrom {line : UInt32} {ss : List Segment} {r : Report}
    (h : r ∈ reportsFrom line ss) :
    ∃ before after, ss = before ++ after ∧ r.line = lineAfter line before := by
  induction ss generalizing line with
  | nil => contradiction
  | cons s rest ih =>
    rcases List.mem_append.mp h with here | later
    · cases s with
      | foreign c =>
        obtain rfl := List.mem_singleton.mp here
        exact ⟨[.foreign c], rest, rfl, rfl⟩
      | openString body =>
        obtain rfl := List.mem_singleton.mp here
        exact ⟨[.openString body], rest, rfl, rfl⟩
      | _ => contradiction
    · obtain ⟨before, after, rfl, reached⟩ := ih later
      exact ⟨s :: before, after, rfl, reached⟩

/-- Going on by `k` lines from a line of the source does not wrap if the lines can be counted. -/
theorem toNat_lineAfter_add {source : String} {before after : List Segment} {k : Nat}
    (h : segments source.toList = before ++ after)
    (small : newlines source.toList + k ≤ UInt32.size - 2) :
    (lineAfter 1 before + UInt32.ofNat k).toNat = (lineAfter 1 before).toNat + k := by
  have whole := texts_segments source.toList
  rw [h, List.flatMap_append] at whole
  have count : newlines source.toList = newlines (before.flatMap Segment.text)
      + newlines (after.flatMap Segment.text) := by
    rw [← newlines_append, whole]
  rw [lineAfter_eq, UInt32.add_assoc, ← UInt32.ofNat_add, toNat_one_add (by omega),
    toNat_one_add (by omega), Nat.add_assoc]

theorem toNat_raise_token {source : String} {k : Nat} {t : Token} (h : t ∈ (scan source).tokens)
    (small : newlines source.toList + k ≤ UInt32.size - 2) :
    (t.raise k).line.toNat = t.line.toNat + k := by
  rw [scan_tokens] at h
  rcases List.mem_append.mp h with inside | final
  · obtain ⟨before, after, cut, reached⟩ := line_of_mem_tokensFrom inside
    have line := toNat_lineAfter_add cut small
    rw [← reached] at line
    exact line
  · obtain rfl := List.mem_singleton.mp final
    exact toNat_lineAfter_add (List.append_nil _).symm small

theorem toNat_raise_report {source : String} {k : Nat} {r : Report}
    (h : r ∈ (scan source).reports) (small : newlines source.toList + k ≤ UInt32.size - 2) :
    (r.raise k).line.toNat = r.line.toNat + k := by
  rw [scan_reports] at h
  obtain ⟨before, after, cut, reached⟩ := line_of_mem_reportsFrom h
  have line := toNat_lineAfter_add cut small
  rw [← reached] at line
  exact line

theorem exists_report_of_openString (line : UInt32) {ss : List Segment} {body : List Char}
    (h : Segment.openString body ∈ ss) :
    ∃ r ∈ reportsFrom line ss, r.message = "Unterminated string" := by
  induction ss generalizing line with
  | nil => contradiction
  | cons s rest ih =>
    rcases List.mem_cons.mp h with rfl | later
    · exact ⟨_, List.mem_cons_self, rfl⟩
    · obtain ⟨r, mem, message⟩ := ih (line + s.lineEnds) later
      exact ⟨r, List.mem_append_right _ mem, message⟩

/-! ### The two scans -/

/-- What the scan of two texts with a line end between them has to do with the scans of the two. -/
structure Joined (a b : String) : Prop where
  tokens : ∃ kept line, (scan a).tokens = kept ++ [Token.endOfSource line]
    ∧ (scan (a ++ "\n" ++ b)).tokens
      = kept ++ (scan b).tokens.map (Token.raise (1 + newlines a.toList))
  reports : (scan (a ++ "\n" ++ b)).reports
    = (scan a).reports ++ (scan b).reports.map (Report.raise (1 + newlines a.toList))
  token_line : ∀ t ∈ (scan b).tokens,
    (t.raise (1 + newlines a.toList)).line.toNat = t.line.toNat + (1 + newlines a.toList)
  report_line : ∀ r ∈ (scan b).reports,
    (r.raise (1 + newlines a.toList)).line.toNat = r.line.toNat + (1 + newlines a.toList)

theorem scan_joined (a b : String)
    (closed : ∀ r ∈ (scan a).reports, r.message ≠ "Unterminated string")
    (small : newlines (a ++ "\n" ++ b).toList < UInt32.size - 1) : Joined a b := by
  have text : (a ++ "\n" ++ b).toList = a.toList ++ '\n' :: b.toList := by simp
  have count : newlines (a ++ "\n" ++ b).toList = newlines b.toList + (1 + newlines a.toList) := by
    rw [text, newlines_append]
    simp [newlines]
    omega
  have none : ∀ body, Segment.openString body ∉ segments a.toList := by
    intro body mem
    obtain ⟨r, reported, message⟩ := exists_report_of_openString 1 mem
    rw [← scan_reports] at reported
    exact closed r reported message
  have cut := segments_append_newline a.toList b.toList none
  have newline : (Segment.blank '\n').lineEnds = 1 := rfl
  have start : lineAfter 1 (segments a.toList) + (Segment.blank '\n').lineEnds
      = 1 + UInt32.ofNat (1 + newlines a.toList) := by
    rw [lineAfter_eq, texts_segments, newline, UInt32.ofNat_add]
    ac_rfl
  refine ⟨⟨_, _, scan_tokens a, ?_⟩, ?_, ?_, ?_⟩
  · have read : tokensFrom (lineAfter 1 (segments a.toList)) (.blank '\n' :: segments b.toList)
        = (tokensFrom 1 (segments b.toList)).map (Token.raise (1 + newlines a.toList)) := by
      show tokensFrom (lineAfter 1 (segments a.toList) + (Segment.blank '\n').lineEnds)
        (segments b.toList) = _
      rw [start, tokensFrom_add]
    have final : lineAfter (lineAfter 1 (segments a.toList)) (.blank '\n' :: segments b.toList)
        = lineAfter 1 (segments b.toList) + UInt32.ofNat (1 + newlines a.toList) := by
      show lineAfter (lineAfter 1 (segments a.toList) + (Segment.blank '\n').lineEnds)
        (segments b.toList) = _
      rw [start, lineAfter_add]
    rw [scan_tokens, scan_tokens, text, cut, tokensFrom_append, lineAfter_append, read, final,
      List.map_append, List.append_assoc]
    rfl
  · have read : reportsFrom (lineAfter 1 (segments a.toList)) (.blank '\n' :: segments b.toList)
        = (reportsFrom 1 (segments b.toList)).map (Report.raise (1 + newlines a.toList)) := by
      show reportsFrom (lineAfter 1 (segments a.toList) + (Segment.blank '\n').lineEnds)
        (segments b.toList) = _
      rw [start, reportsFrom_add]
    rw [scan_reports, scan_reports, scan_reports, text, cut, reportsFrom_append, read]
  · intro t ht
    exact toNat_raise_token ht (by omega)
  · intro r hr
    exact toNat_raise_report hr (by omega)

theorem scan_joined_foreign :
    (∀ r ∈ (scan "x = 1.\n@ \"p\nq\" !").reports, r.message ≠ "Unterminated string")
      ∧ newlines ("x = 1.\n@ \"p\nq\" !" ++ "\n" ++ "= 2 # \"\n").toList < UInt32.size - 1
      ∧ Joined "x = 1.\n@ \"p\nq\" !" "= 2 # \"\n" := by
  have closed : ∀ r ∈ (scan "x = 1.\n@ \"p\nq\" !").reports,
      r.message ≠ "Unterminated string" := by decide +kernel
  have small : newlines ("x = 1.\n@ \"p\nq\" !" ++ "\n" ++ "= 2 # \"\n").toList
      < UInt32.size - 1 := by decide
  exact ⟨closed, small, scan_joined _ _ closed small⟩

end Lexical

end Lox
