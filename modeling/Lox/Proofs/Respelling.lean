import Lox.Proofs.Automaton
import Lox.Proofs.CursorSafety
import Lox.Proofs.Layout
import Lox.Proofs.Listing

/-!
# Sources in other characters

What a scan makes of a source does not depend on which characters outside the alphabet it holds, nor
on the blanks before its line ends.  A `Respelling` changes both, one character at a time.  Segments
end where they ended before, except that a comment takes in the blanks before the end of its line, and
so the respelled source has the respelled tokens and reports, on the same lines.
-/

namespace Lox

def Literal.mapText (f : String → String) : Literal → Literal
  | text value => text (f value)
  | number value => number value

def Token.mapText (f : String → String) (t : Token) : Token :=
  { t with lexeme := f t.lexeme, literal := t.literal.map (Literal.mapText f) }

theorem Token.mapText_endOfSource {f : String → String} (h : f "" = "") (line : UInt32) :
    (endOfSource line).mapText f = endOfSource line := by
  simp only [mapText, endOfSource, h, Option.map_none]

namespace Lexical

/-- Two reports of the same error on the same line, the second of them with the character changed. -/
inductive Renamed (f : Char → Char) : Report → Report → Prop
  | unexpectedCharacter (c : Char) (line : UInt32) :
      Renamed f ⟨line, "Unexpected character '" ++ c.toString ++ "'"⟩
        ⟨line, "Unexpected character '" ++ (f c).toString ++ "'"⟩
  | unterminatedString (line : UInt32) :
      Renamed f ⟨line, "Unterminated string"⟩ ⟨line, "Unterminated string"⟩

theorem Renamed.eq {r r' : Report} (h : Renamed id r r') : r = r' := by
  cases h <;> rfl

/-- Foreign characters are changed into foreign characters, and blanks are put before line ends. -/
structure Respelling where
  char : Char → Char
  lead : List Char
  fixes : ∀ c, classify c ≠ .foreign → char c = c
  foreign : ∀ c, classify c = .foreign → classify (char c) = .foreign
  blank : ∀ b ∈ lead, isBlank b
  sameLine : '\n' ∉ lead

namespace Respelling

variable (g : Respelling)

def spell (c : Char) : List Char := if c = '\n' then g.lead ++ ['\n'] else [g.char c]

def chars (cs : List Char) : List Char := cs.flatMap g.spell

def string (s : String) : String := String.ofList (g.chars s.toList)

/-! ### Respelled texts -/

@[simp] theorem chars_nil : g.chars [] = [] := rfl

@[simp] theorem chars_append (cs ds : List Char) :
    g.chars (cs ++ ds) = g.chars cs ++ g.chars ds := List.flatMap_append

theorem chars_newline (cs : List Char) : g.chars ('\n' :: cs) = g.lead ++ '\n' :: g.chars cs := by
  simp [chars, spell]

theorem chars_cons {c : Char} (h : c ≠ '\n') (cs : List Char) :
    g.chars (c :: cs) = g.char c :: g.chars cs := by
  simp [chars, spell, h]

theorem chars_cons_self {c : Char} (known : classify c ≠ .foreign) (h : c ≠ '\n')
    (cs : List Char) : g.chars (c :: cs) = c :: g.chars cs := by
  rw [g.chars_cons h, g.fixes c known]

/-- What stands for a blank is blank. -/
theorem isBlank_spell {c : Char} (hc : isBlank c) : ∀ b ∈ g.spell c, isBlank b := by
  intro b hb
  rw [spell] at hb
  split at hb
  · rcases List.mem_append.mp hb with added | final
    · exact g.blank b added
    · rw [List.mem_singleton.mp final]
      rfl
  · rw [List.mem_singleton.mp hb, g.fixes c (by simp [classify_of_isBlank hc])]
    exact hc

theorem chars_quote (cs : List Char) : g.chars ('"' :: cs) = '"' :: g.chars cs :=
  g.chars_cons_self (by decide) (by decide) cs

theorem string_ofList (cs : List Char) :
    g.string (String.ofList cs) = String.ofList (g.chars cs) := by
  rw [string, String.toList_ofList]

theorem eq_of_char_eq {c d : Char} (h : g.char c = d) (known : classify d ≠ .foreign) : c = d := by
  by_cases foreign : classify c = .foreign
  · exact absurd (h ▸ g.foreign c foreign) known
  · rw [← h, g.fixes c foreign]

/-- No character of the alphabet comes from another one, the blanks of line ends apart. -/
theorem mem_of_mem_chars {c : Char} {cs : List Char} (h : c ∈ g.chars cs)
    (known : classify c ≠ .foreign) (added : c ∉ g.lead) : c ∈ cs := by
  obtain ⟨d, hd, spelled⟩ := List.mem_flatMap.mp h
  rw [spell] at spelled
  split at spelled
  · next newline =>
    rcases List.mem_append.mp spelled with inside | final
    · exact absurd inside added
    · rw [List.mem_singleton.mp final, ← newline]
      exact hd
  · obtain rfl := g.eq_of_char_eq (List.mem_singleton.mp spelled).symm known
    exact hd

theorem quote_notMem_chars {cs : List Char} (h : '"' ∉ cs) : '"' ∉ g.chars cs := by
  intro mem
  refine h (g.mem_of_mem_chars mem (by decide) ?_)
  intro added
  exact absurd (g.blank '"' added) (by decide)

theorem newline_notMem_chars {cs : List Char} (h : '\n' ∉ cs) : '\n' ∉ g.chars cs :=
  fun mem => h (g.mem_of_mem_chars mem (by decide) g.sameLine)

theorem newlines_chars (cs : List Char) : newlines (g.chars cs) = newlines cs := by
  induction cs with
  | nil => rfl
  | cons c cs ih =>
    by_cases newline : c = '\n'
    · subst newline
      have none : newlines g.lead = 0 := List.count_eq_zero.mpr g.sameLine
      rw [chars_newline, newlines_append, none, Nat.zero_add]
      simpa [newlines] using ih
    · have other : g.char c ≠ '\n' := fun same => newline (g.eq_of_char_eq same (by decide))
      rw [g.chars_cons newline]
      simpa [newlines, newline, other] using ih

theorem chars_eq_self {cs : List Char} (h : ∀ c ∈ cs, classify c ≠ .foreign ∧ c ≠ '\n') :
    g.chars cs = cs := by
  induction cs with
  | nil => rfl
  | cons c cs ih =>
    obtain ⟨⟨known, other⟩, later⟩ := List.forall_mem_cons.mp h
    rw [g.chars_cons_self known other, ih later]

/-! ### Lexemes -/

theorem head?_chars {cs : List Char} {c : Char} (h : (g.chars cs).head? = some c)
    (solid : isBlank c = false) (known : classify c ≠ .foreign) : cs.head? = some c := by
  cases cs with
  | nil => contradiction
  | cons d ds =>
    by_cases newline : d = '\n'
    · have filled : g.spell '\n' ≠ [] := by simp [spell]
      have text : g.chars ('\n' :: ds) = g.spell '\n' ++ g.chars ds := List.flatMap_cons
      rw [newline, text, List.head?_append_of_ne_nil _ filled] at h
      rw [g.isBlank_spell rfl c (List.mem_of_head? h)] at solid
      contradiction
    · rw [g.chars_cons newline] at h
      rw [List.head?_cons, g.eq_of_char_eq (Option.some.inj h) known]

theorem beginsLike_chars (cs : List Char) : BeginsLike (g.chars cs) cs where
  head := fun _ => g.head?_chars
  point := by
    intro d tail point digit
    have first : cs.head? = some '.' := g.head?_chars (by rw [point]; rfl) rfl (by decide)
    obtain ⟨rest, rfl⟩ := List.head?_eq_some_iff.mp first
    rw [g.chars_cons (by decide)] at point
    have next : (g.chars rest).head? = some d := by rw [(List.cons.inj point).2]; rfl
    have word := isWordChar_of_isDigit digit
    have second := g.head?_chars next (isBlank_eq_false_of_isWordChar word)
      (ne_foreign_of_isWordChar word)
    obtain ⟨tail', rfl⟩ := List.head?_eq_some_iff.mp second
    exact ⟨tail', rfl⟩

section Lexemes

variable {kind : Kind} {characters rest : List Char}

/-- Only strings hold characters that a respelling changes. -/
theorem chars_lexeme (h : IsLexeme kind characters) (other : kind ≠ .string) :
    g.chars characters = characters := by
  apply g.chars_eq_self
  intro c mem
  constructor
  · rcases symbol_or_plain h other with listed | plain
    · have all : ∀ s ∈ symbols, (s.1.all fun c => classify c ≠ .foreign) = true := by decide
      simpa using List.all_eq_true.mp (all _ listed) c mem
    · rcases plain c mem with word | point
      · exact ne_foreign_of_isWordChar word
      · subst point
        decide
  · intro newline
    have solid := isBlank_eq_false_of_mem_lexeme h other c mem
    rw [newline] at solid
    contradiction

theorem chars_string (body : List Char) :
    g.chars ('"' :: body ++ ['"']) = '"' :: g.chars body ++ ['"'] := by
  rw [chars_append, chars_quote, chars_quote, chars_nil]

theorem endsBefore_chars (h : (Segment.lexeme kind characters).EndsBefore rest) :
    (Segment.lexeme kind (g.chars characters)).EndsBefore (g.chars rest) := by
  by_cases string : kind = .string
  · subst string
    obtain ⟨body, text, closed⟩ := exists_body_of_string ⟨rest, h⟩
    rw [text, ← List.cons_append, chars_string]
    exact .string (g.quote_notMem_chars closed)
  · rw [g.chars_lexeme ⟨rest, h⟩ string]
    exact (g.beginsLike_chars rest).endsBefore h

theorem literalOf_chars (h : IsLexeme kind characters) :
    literalOf kind (g.chars characters)
      = (literalOf kind characters).map (Literal.mapText g.string) := by
  by_cases string : kind = .string
  · subst string
    obtain ⟨body, text, _⟩ := exists_body_of_string h
    rw [text, ← List.cons_append, chars_string, literalOf_string, literalOf_string,
      Option.map_some, Literal.mapText, string_ofList]
  · rw [g.chars_lexeme h string]
    cases kind <;> first | rfl | contradiction

theorem tokenOf_chars (h : IsLexeme kind characters) (line : UInt32) :
    tokenOf kind (g.chars characters) line = (tokenOf kind characters line).mapText g.string := by
  rw [tokenOf, tokenOf, Token.mapText, g.literalOf_chars h, string_ofList]

end Lexemes

/-! ### What comes of the segments -/

/-- Blanks other than line ends leave nothing behind. -/
theorem read_blanks {bs : List Char} (sameLine : '\n' ∉ bs) (line : UInt32) (ss : List Segment) :
    lineAfter line (bs.map .blank ++ ss) = lineAfter line ss
      ∧ tokensFrom line (bs.map .blank ++ ss) = tokensFrom line ss
      ∧ reportsFrom line (bs.map .blank ++ ss) = reportsFrom line ss := by
  induction bs with
  | nil => exact ⟨rfl, rfl, rfl⟩
  | cons b bs ih =>
    obtain ⟨here, later⟩ := List.ne_and_not_mem_of_not_mem_cons sameLine
    have none : (Segment.blank b).lineEnds = 0 :=
      lineEnds_eq_zero (by simpa [Segment.text] using here)
    simp only [List.map_cons, List.cons_append, lineAfter, tokensFrom, reportsFrom, none,
      UInt32.add_zero, Segment.token?, Segment.report?, Option.toList_none, List.nil_append]
    exact ih later

/-- The segments `ss'` of a respelled text have the respelled tokens and reports of `ss`. -/
structure Respells (line : UInt32) (ss ss' : List Segment) : Prop where
  reached : lineAfter line ss' = lineAfter line ss
  tokens : tokensFrom line ss' = (tokensFrom line ss).map (Token.mapText g.string)
  reports : List.Forall₂ (Renamed g.char) (reportsFrom line ss) (reportsFrom line ss')

namespace Respells

variable {g : Respelling} {line : UInt32} {ss ss' ts ts' : List Segment}

theorem nil (line : UInt32) : Respells g line [] [] := ⟨rfl, rfl, .nil⟩

theorem append (h : Respells g line ss ss') (h' : Respells g (lineAfter line ss) ts ts') :
    Respells g line (ss ++ ts) (ss' ++ ts') where
  reached := by rw [lineAfter_append, lineAfter_append, h.reached, h'.reached]
  tokens := by
    rw [tokensFrom_append, tokensFrom_append, h.reached, h.tokens, h'.tokens, List.map_append]
  reports := by
    rw [reportsFrom_append, reportsFrom_append, h.reached]
    exact List.rel_append h.reports h'.reports

theorem single {s s' : Segment} (text : s'.text = g.chars s.text)
    (token : s'.token? (line + s.lineEnds)
      = (s.token? (line + s.lineEnds)).map (Token.mapText g.string))
    (report : List.Forall₂ (Renamed g.char) (s.report? (line + s.lineEnds)).toList
      (s'.report? (line + s.lineEnds)).toList) : Respells g line [s] [s'] := by
  have lineEnds : s'.lineEnds = s.lineEnds := by
    have count : newlines s'.text = newlines s.text := by rw [text, newlines_chars]
    exact congrArg UInt32.ofNat count
  constructor
  · simp only [lineAfter, lineEnds]
  · simp only [tokensFrom, lineEnds, token, List.append_nil]
    cases s.token? (line + s.lineEnds) <;> rfl
  · simpa only [reportsFrom, lineEnds, List.append_nil] using report

theorem cons_comment {body body' : List Char} (h : '\n' ∉ body) (h' : '\n' ∉ body')
    (later : Respells g line ss ss') :
    Respells g line (.comment body :: ss) (.comment body' :: ss') := by
  have none {body : List Char} (h : '\n' ∉ body) (line : UInt32) :
      line + (Segment.comment body).lineEnds = line := by
    have lineEnds : (Segment.comment body).lineEnds = 0 :=
      lineEnds_eq_zero (by simpa [Segment.text] using h)
    rw [lineEnds, UInt32.add_zero]
  constructor
  · rw [lineAfter, lineAfter, none h, none h', later.reached]
  · rw [tokensFrom, tokensFrom, none h, none h']
    exact later.tokens
  · rw [reportsFrom, reportsFrom, none h, none h']
    exact later.reports

end Respells

/-- What a segment becomes when it is respelled on its own. -/
def image : Segment → List Segment
  | .blank c => (g.spell c).map .blank
  | .comment body => [.comment (g.chars body)]
  | .lexeme kind characters => [.lexeme kind (g.chars characters)]
  | .foreign c => [.foreign (g.char c)]
  | .openString body => [.openString (g.chars body)]

theorem segments_blanks {bs : List Char} (h : ∀ b ∈ bs, isBlank b) (rest : List Char) :
    segments (bs ++ rest) = bs.map .blank ++ segments rest := by
  induction bs with
  | nil => rfl
  | cons b bs ih =>
    obtain ⟨here, later⟩ := List.forall_mem_cons.mp h
    have ends : (Segment.blank b).EndsBefore (bs ++ rest) := .blank here
    have cut := segments_append ends
    rw [ih later] at cut
    exact cut

section Images

variable {seg : Segment} {rest : List Char} (ends : seg.EndsBefore rest)

include ends

theorem segments_chars (closed : ∀ body, seg ≠ .comment body) :
    segments (g.chars (seg.text ++ rest)) = g.image seg ++ segments (g.chars rest) := by
  cases seg with
  | comment body => exact absurd rfl (closed body)
  | blank c =>
    cases ends with
    | blank hc =>
      exact segments_blanks (g.isBlank_spell hc) (g.chars rest)
  | lexeme kind characters =>
    rw [chars_append]
    exact segments_append (g.endsBefore_chars ends)
  | foreign c =>
    cases ends with
    | foreign hc =>
      have other : c ≠ '\n' := ne_newline_of_classify (by simp [hc])
      have cut : (Segment.foreign (g.char c)).EndsBefore (g.chars rest) := .foreign (g.foreign c hc)
      rw [Segment.text, List.singleton_append, g.chars_cons other]
      exact segments_append cut
  | openString body =>
    cases ends with
    | openString hbody =>
      have cut := segments_append (.openString (g.quote_notMem_chars hbody))
      rw [segments_nil, List.append_nil] at cut
      rw [Segment.text, List.append_nil, chars_quote, chars_nil, segments_nil]
      exact cut

theorem respells_image (line : UInt32) : g.Respells line [seg] (g.image seg) := by
  cases seg with
  | blank c =>
    cases ends with
    | blank hc =>
      by_cases newline : c = '\n'
      · subst newline
        obtain ⟨reached, tokens, reports⟩ := read_blanks g.sameLine line [.blank '\n']
        rw [image, spell, if_pos rfl, List.map_append]
        exact ⟨reached, tokens, by rw [List.map_singleton, reports]; exact .nil⟩
      · rw [image, spell, if_neg newline, g.fixes c (by simp [classify_of_isBlank hc])]
        exact ⟨rfl, rfl, .nil⟩
  | comment body =>
    cases ends with
    | comment hbody _ => exact .cons_comment hbody (g.newline_notMem_chars hbody) (.nil line)
  | lexeme kind characters =>
    refine .single rfl ?_ .nil
    exact congrArg some (g.tokenOf_chars ⟨rest, ends⟩ _)
  | foreign c =>
    cases ends with
    | foreign hc =>
      have other : c ≠ '\n' := ne_newline_of_classify (by simp [hc])
      refine .single (g.chars_cons other []).symm rfl ?_
      exact .cons (.unexpectedCharacter c _) .nil
  | openString body =>
    refine .single (g.chars_quote body).symm rfl ?_
    exact .cons (.unterminatedString _) .nil

end Images

theorem respells_comment {body rest : List Char} {line : UInt32}
    (ends : (Segment.comment body).EndsBefore rest)
    (later : g.Respells line (segments rest) (segments (g.chars rest))) :
    g.Respells line (.comment body :: segments rest)
      (segments (g.chars ('/' :: '/' :: body ++ rest))) := by
  have slash (cs : List Char) : g.chars ('/' :: cs) = '/' :: g.chars cs :=
    g.chars_cons_self (by decide) (by decide) cs
  rw [List.cons_append, List.cons_append, slash, slash, chars_append]
  cases ends with
  | comment hbody hrest =>
    have spelled := g.newline_notMem_chars hbody
    cases rest with
    | nil =>
      have nothing : ∀ c ∈ ([] : List Char).head?, c = '\n' := nofun
      have cut := segments_comment spelled nothing
      rw [chars_nil, ← List.cons_append, ← List.cons_append, cut]
      exact .cons_comment hbody spelled later
    | cons c tail =>
      obtain rfl := hrest c rfl
      -- the blanks before the line end become part of the comment
      have longer : '\n' ∉ g.chars body ++ g.lead := by
        rw [List.mem_append, not_or]
        exact ⟨spelled, g.sameLine⟩
      have newline : ∀ c ∈ ('\n' :: g.chars tail).head?, c = '\n' := by
        intro c hc
        cases hc
        rfl
      have cut := segments_comment longer newline
      rw [chars_newline] at later ⊢
      rw [segments_blanks g.blank] at later
      rw [← List.append_assoc, ← List.cons_append, ← List.cons_append, cut]
      obtain ⟨reached, tokens, reports⟩ :=
        read_blanks g.sameLine line (segments ('\n' :: g.chars tail))
      have rest : g.Respells line (segments ('\n' :: tail)) (segments ('\n' :: g.chars tail)) :=
        ⟨reached ▸ later.reached, tokens ▸ later.tokens, reports ▸ later.reports⟩
      exact .cons_comment hbody longer rest

theorem respells_segments (cs : List Char) (line : UInt32) :
    g.Respells line (segments cs) (segments (g.chars cs)) := by
  induction cs using source_induction generalizing line with
  | nil =>
    rw [chars_nil, segments_nil]
    exact .nil line
  | cut seg rest ends ih =>
    rw [segments_append ends]
    by_cases closed : ∀ body, seg ≠ .comment body
    · rw [g.segments_chars ends closed]
      exact (g.respells_image ends line).append (ih _)
    · obtain ⟨body, same⟩ := not_forall_not.mp closed
      subst same
      exact g.respells_comment ends (ih line)

theorem scan_string (source : String) :
    (scan (g.string source)).tokens = (scan source).tokens.map (Token.mapText g.string)
      ∧ List.Forall₂ (Renamed g.char) (scan source).reports (scan (g.string source)).reports := by
  have text : (g.string source).toList = g.chars source.toList := String.toList_ofList
  have same := g.respells_segments source.toList 1
  constructor
  · rw [scan_tokens, scan_tokens, text, same.tokens, same.reached, List.map_append,
      List.map_singleton, Token.mapText_endOfSource rfl]
  · rw [scan_reports, scan_reports, text]
    exact same.reports

end Respelling

/-! ### Line ends with a carriage return -/

def crlf (s : String) : String :=
  String.ofList (s.toList.flatMap fun c => if c = '\n' then ['\r', '\n'] else [c])

def Respelling.returns : Respelling where
  char := id
  lead := ['\r']
  fixes := fun _ _ => rfl
  foreign := fun _ h => h
  blank := List.forall_mem_singleton.mpr rfl
  sameLine := by decide

/-- With a carriage return before every line end, a source has the same reports, and the same tokens
but for the carriage returns in their lexemes and texts. -/
theorem scan_crlf (source : String) :
    (scan (crlf source)).tokens = (scan source).tokens.map (Token.mapText crlf)
      ∧ (scan (crlf source)).reports = (scan source).reports := by
  have string : Respelling.returns.string = crlf := rfl
  obtain ⟨tokens, reports⟩ := Respelling.returns.scan_string source
  rw [string] at tokens reports
  refine ⟨tokens, ?_⟩
  rw [← List.forall₂_eq_eq_eq]
  exact reports.flip.imp fun _ _ same => same.eq.symm

-- The string takes in the carriage return inside it, the comment the one after it.
example : (scan (crlf "1.\n//@\n\"a\nb\"")).tokens.map Token.lexeme
    = ["1", ".", "\"a\r\nb\"", ""] := by decide +kernel

/-! ### Other foreign characters -/

/-- The cursor comes to the end of the source without a fault and leaves just this behind. -/
def Cursor.Leaves (source : String) (outcome : Scan) : Prop :=
  ∃ n s, Cursor.run source ({} : Collector) n = .ok s ∧ s.point = .done
    ∧ s.progress.tokens.toList = outcome.tokens ∧ s.progress.sink.reports.toList = outcome.reports

theorem Cursor.leaves_scan {source : String} (small : newlines source.toList ≤ UInt32.size - 2) :
    Leaves source (scan source) := by
  have begins : run source ({} : Collector) 0 = .ok (initial {}) := rfl
  obtain ⟨n, _, s, _, made, hd, tracks⟩ :=
    exists_done small begins (tracks_initial source ({} : Collector))
  obtain ⟨tokens, sink⟩ := Prod.mk.inj (tracks.outcome hd)
  exact ⟨n, s, made, hd, tokens, by rw [sink]; rfl⟩

/-- Changing the characters of the source changes those of its tokens and reports and nothing else.
The same goes for the cursor over the bytes, which sees U+0000 at the end of a source. -/
structure Exchanged (f : Char → Char) (source : String) : Prop where
  tokens : (scan (source.map f)).tokens = (scan source).tokens.map (Token.mapText (String.map f))
  reports : List.Forall₂ (Renamed f) (scan source).reports (scan (source.map f)).reports
  cursor : newlines source.toList ≤ UInt32.size - 2 →
    Cursor.Leaves source (scan source) ∧ Cursor.Leaves (source.map f) (scan (source.map f))

def Respelling.ofMap (f : Char → Char) (fixes : ∀ c, InAlphabet c → f c = c)
    (others : ∀ c, ¬ InAlphabet c → ¬ InAlphabet (f c)) : Respelling where
  char := f
  lead := []
  fixes := fun c known => fixes c (not_not.mp (mt classify_eq_foreign_iff.mpr known))
  foreign := fun c foreign =>
    classify_eq_foreign_iff.mpr (others c (classify_eq_foreign_iff.mp foreign))
  blank := nofun
  sameLine := nofun

/-- U+0000 and a letter of two bytes in each other's place. -/
def exchangeNull (c : Char) : Char :=
  if c = '\x00' then 'é' else if c = 'é' then '\x00' else c

theorem exchangeNull_fixes (c : Char) (inside : InAlphabet c) : exchangeNull c = c := by
  have notNull : c ≠ '\x00' := fun same => absurd (same ▸ inside) (by decide)
  have notLetter : c ≠ 'é' := fun same => absurd (same ▸ inside) (by decide)
  rw [exchangeNull, if_neg notNull, if_neg notLetter]

theorem exchangeNull_others (c : Char) (outside : ¬ InAlphabet c) :
    ¬ InAlphabet (exchangeNull c) := by
  unfold exchangeNull
  split
  · decide
  split
  · decide
  · exact outside

section Map

variable {f : Char → Char} (fixes : ∀ c, InAlphabet c → f c = c)
  (others : ∀ c, ¬ InAlphabet c → ¬ InAlphabet (f c))

theorem Respelling.chars_ofMap (cs : List Char) : (ofMap f fixes others).chars cs = cs.map f := by
  induction cs with
  | nil => rfl
  | cons c cs ih =>
    by_cases newline : c = '\n'
    · rw [newline, chars_newline, ih, List.map_cons, fixes '\n' (by decide)]
      rfl
    · rw [chars_cons _ newline, ih]
      rfl

theorem Respelling.string_ofMap (s : String) : (ofMap f fixes others).string s = s.map f := by
  rw [← String.toList_inj, string, String.toList_ofList, chars_ofMap, String.toList_map]

include fixes others in
/-- Characters outside the alphabet are interchangeable. -/
theorem scan_map (source : String) : Exchanged f source := by
  have string : (Respelling.ofMap f fixes others).string = String.map f :=
    funext (Respelling.string_ofMap fixes others)
  obtain ⟨tokens, reports⟩ := (Respelling.ofMap f fixes others).scan_string source
  rw [string] at tokens reports
  refine ⟨tokens, reports, ?_⟩
  intro small
  have count := (Respelling.ofMap f fixes others).newlines_chars source.toList
  rw [Respelling.chars_ofMap, ← String.toList_map] at count
  exact ⟨Cursor.leaves_scan small, Cursor.leaves_scan (count ▸ small)⟩

end Map

theorem scan_map_exchangeNull :
    (∀ c, InAlphabet c → exchangeNull c = c) ∧ (∀ c, ¬ InAlphabet c → ¬ InAlphabet (exchangeNull c))
      ∧ Exchanged exchangeNull "\"\x00é\" 1.\x00 1.é2!é=/\x00/ //é\n\x00é" :=
  ⟨exchangeNull_fixes, exchangeNull_others, scan_map exchangeNull_fixes exchangeNull_others _⟩

end Lexical

end Lox
