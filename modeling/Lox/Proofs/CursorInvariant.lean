import Lox.Lexical.Cursor
import Lox.Proofs.MaximalMunch

/-!
# What the cursor has read

`Tracks` ties a cursor to the segments of its source: which of them lie behind it, and which
characters of the next one it has taken.  Where it holds, every operation of the cursor gives what it
should, and there are three ways to go on: take a character, turn to another point, close a segment.
-/

namespace Lox.Lexical

/-! ### Segments with line ends -/

theorem newline_notMem_of_isDigit {cs : List Char} (h : ∀ c ∈ cs, c.isDigit) : '\n' ∉ cs := by
  intro mem
  have digit := h '\n' mem
  contradiction

theorem newline_notMem_of_isWordChar {cs : List Char} (h : ∀ c ∈ cs, isWordChar c) :
    '\n' ∉ cs := by
  intro mem
  have word := h '\n' mem
  contradiction

theorem ne_newline_of_classify {c : Char} (h : classify c ≠ .blank) : c ≠ '\n' := by
  intro same
  subst same
  exact h rfl

/-- Among the lexemes only strings have line ends in them. -/
theorem Segment.EndsBefore.newline_notMem {kind : Kind} {text rest : List Char}
    (h : (Segment.lexeme kind text).EndsBefore rest) (hkind : kind ≠ .string) : '\n' ∉ text := by
  cases h with
  | punctuator hc =>
    have differs := ne_newline_of_classify (by rw [hc]; simp)
    simpa using differs.symm
  | alone hc hrest =>
    have differs := ne_newline_of_classify (by rw [hc]; simp)
    simpa using differs.symm
  | withEqual hc =>
    have differs := ne_newline_of_classify (by rw [hc]; simp)
    simpa using differs.symm
  | slash hrest => decide
  | word hc hcs hrest =>
    apply newline_notMem_of_isWordChar
    intro d hd
    rcases List.mem_cons.mp hd with same | mem
    · exact same ▸ isWordChar_of_isLetter hc
    · exact hcs d mem
  | whole hc hcs hrest hpoint =>
    apply newline_notMem_of_isDigit
    simpa using ⟨hc, hcs⟩
  | @decimal c cs d ds rest hc hcs hd hds hrest =>
    have left : '\n' ∉ c :: cs := newline_notMem_of_isDigit (by simpa using ⟨hc, hcs⟩)
    have right : '\n' ∉ d :: ds := newline_notMem_of_isDigit (by simpa using ⟨hd, hds⟩)
    intro mem
    rcases List.mem_append.mp mem with inside | after
    · exact left inside
    · rcases List.mem_cons.mp after with point | inside
      · contradiction
      · exact right inside
  | string hbody => exact absurd rfl hkind

theorem ofWord_ne_string (word : String) : Kind.ofWord word ≠ .string := by
  unfold Kind.ofWord
  cases keyword? word <;> simp

theorem line_unchanged {σ : Type} {kind : Kind} {text rest : List Char}
    (h : (Segment.lexeme kind text).EndsBefore rest) (hkind : kind ≠ .string) (p : Progress σ) :
    p = { p with line := p.line + (Segment.lexeme kind text).lineEnds } := by
  have none : (Segment.lexeme kind text).lineEnds = 0 := lineEnds_eq_zero (h.newline_notMem hkind)
  rw [none, UInt32.add_zero]

/-! ### The characters taken so far -/

/-- What has been taken of a segment when the cursor is at a point, and what must still follow. -/
inductive Form : Point → List Char → List Char → Prop
  | between {rest} : Form .between [] rest
  | begun {c rest} : Form (.begun c) [c] rest
  | comment {body rest} (hbody : '\n' ∉ body) : Form .comment ('/' :: '/' :: body) rest
  | string {body rest} (hbody : '"' ∉ body) : Form .string ('"' :: body) rest
  | closed {body rest} (hbody : '"' ∉ body) : Form .closed ('"' :: body ++ ['"']) rest
  | whole {c cs rest} (hc : c.isDigit) (hcs : ∀ d ∈ cs, d.isDigit) : Form .whole (c :: cs) rest
  | point {c cs d rest} (hc : c.isDigit) (hcs : ∀ d ∈ cs, d.isDigit) (hd : d.isDigit) :
      Form .fraction (c :: cs ++ ['.']) (d :: rest)
  | fraction {c cs d ds rest} (hc : c.isDigit) (hcs : ∀ d ∈ cs, d.isDigit) (hd : d.isDigit)
      (hds : ∀ e ∈ ds, e.isDigit) : Form .fraction (c :: cs ++ '.' :: d :: ds) rest
  | numeral {text rest} (h : (Segment.lexeme .number text).EndsBefore rest) :
      Form .numeral text rest
  | word {c cs rest} (hc : isLetter c) (hcs : ∀ d ∈ cs, isWordChar d) : Form .word (c :: cs) rest
  | done : Form .done [] []

namespace Cursor

variable {σ : Type} [Sink σ] {source : String} {sink : σ} {s : Cursor σ} {past : List Segment}
  {taken rest : List Char}

abbrev passed (past : List Segment) : List Char := past.flatMap Segment.text

def readAll (sink : σ) (past : List Segment) : Progress σ :=
  past.foldl Progress.read (Progress.start sink)

/-- Inside a string the lines are counted as they come, elsewhere at the end of the segment. -/
def reached (sink : σ) (past : List Segment) (taken : List Char) : Point → Progress σ
  | .string | .closed =>
    { readAll sink past with
      line := (readAll sink past).line + UInt32.ofNat (newlines taken) }
  | .done => (readAll sink past).emit (Token.endOfSource (readAll sink past).line)
  | _ => readAll sink past

/-- The cursor has passed the segments `past`, has taken the characters `taken` of the next one and
has `rest` before it. -/
structure Tracks (source : String) (sink : σ) (s : Cursor σ) (past : List Segment)
    (taken rest : List Char) : Prop where
  whole : source.toList = passed past ++ (taken ++ rest)
  cut : segments source.toList = past ++ segments (taken ++ rest)
  current : s.current = byteLength (passed past ++ taken)
  before : ∃ earlier, earlier <+: passed past ∧ s.start = byteLength earlier
  start : taken ≠ [] → s.start = byteLength (passed past)
  form : Form s.point taken rest
  progress : s.progress = reached sink past taken s.point

theorem line_readAll (sink : σ) (past : List Segment) :
    (readAll sink past).line = 1 + UInt32.ofNat (newlines (passed past)) := by
  have line := Progress.line_foldl_read past (Progress.start sink)
  rw [lineAfter_eq] at line
  exact line

theorem line_reached_string (sink : σ) (past : List Segment) (taken : List Char) :
    (reached sink past taken .string).line
      = 1 + UInt32.ofNat (newlines (passed past) + newlines taken) := by
  rw [UInt32.ofNat_add, ← UInt32.add_assoc, ← line_readAll sink]
  rfl

theorem tracks_initial (source : String) (sink : σ) :
    Tracks source sink (initial sink) [] [] source.toList where
  whole := rfl
  cut := rfl
  current := rfl
  before := ⟨[], List.prefix_rfl, rfl⟩
  start := by simp
  form := .between
  progress := rfl

namespace Tracks

/-! ### What the operations give -/

theorem ahead_eq (h : Tracks source sink s past taken rest) : s.ahead source = .ok rest := by
  have split : splitByte s.current source.toList = some (passed past ++ taken, rest) := by
    rw [h.current, h.whole, ← List.append_assoc, splitByte_append]
  simp only [ahead, split]

theorem peek_eq (h : Tracks source sink s past taken rest) :
    s.peek source = .ok (rest.headD '\x00') := by
  simp only [peek, h.ahead_eq, ok_bind, pure_eq_ok]

theorem peekNext_eq (h : Tracks source sink s past taken rest) :
    s.peekNext source = .ok (rest.tail.headD '\x00') := by
  simp only [peekNext, h.ahead_eq, ok_bind, pure_eq_ok]

theorem size_eq (h : Tracks source sink s past taken rest) :
    source.utf8ByteSize = s.current + byteLength rest := by
  have size := byteLength_toList source
  rw [h.whole, ← List.append_assoc, byteLength_append, ← h.current] at size
  exact size.symm

theorem atEnd_nil (h : Tracks source sink s past taken []) : s.atEnd source = true := by
  have size := h.size_eq
  simp [atEnd, size]

theorem atEnd_cons {c : Char} (h : Tracks source sink s past taken (c :: rest)) :
    s.atEnd source = false := by
  have size := h.size_eq
  have positive := c.utf8Size_pos
  simp only [byteLength_cons] at size
  simp only [atEnd, decide_eq_false_iff_not]
  omega

theorem next_eq {c : Char} (h : Tracks source sink s past taken (c :: rest)) :
    s.next source = .ok (c, { s with current := s.current + c.utf8Size }) := by
  simp [next, h.atEnd_cons, h.peek_eq]

theorem takeIf_true {c : Char} (h : Tracks source sink s past taken (c :: rest)) :
    s.takeIf source c = .ok (true, { s with current := s.current + c.utf8Size }) := by
  simp [takeIf, h.atEnd_cons, h.peek_eq]

theorem takeIf_false {c : Char} (h : Tracks source sink s past taken rest)
    (differs : rest.head? ≠ some c) : s.takeIf source c = .ok (false, s) := by
  cases rest with
  | nil => simp [takeIf, h.atEnd_nil]
  | cons d ds =>
    have other : d ≠ c := by simpa using differs
    simp [takeIf, h.atEnd_cons, h.peek_eq, other]

/-! ### How the cursor goes on -/

theorem ne_nil (h : Tracks source sink s past taken rest) (hb : s.point ≠ .between)
    (hd : s.point ≠ .done) : taken ≠ [] := by
  have form := h.form
  generalize s.point = point at form hb hd
  cases form with
  | between => exact absurd rfl hb
  | done => exact absurd rfl hd
  | numeral ends => exact ends.text_ne_nil
  | _ => simp

/-- The next character is taken. -/
theorem take {s' : Cursor σ} {c : Char} (h : Tracks source sink s past taken (c :: rest))
    (start : s'.start = byteLength (passed past)) (current : s'.current = s.current + c.utf8Size)
    (form : Form s'.point (taken ++ [c]) rest)
    (progress : s'.progress = reached sink past (taken ++ [c]) s'.point) :
    Tracks source sink s' past (taken ++ [c]) rest where
  whole := by rw [h.whole, List.append_assoc, List.singleton_append]
  cut := by rw [h.cut, List.append_assoc, List.singleton_append]
  current := by
    rw [current, h.current, ← List.append_assoc, byteLength_append _ [c]]
    rfl
  before := ⟨passed past, List.prefix_rfl, start⟩
  start := fun _ => start
  form := form
  progress := progress

/-- No character is taken, but the reading of the segment comes to another point. -/
theorem turn (h : Tracks source sink s past taken rest) (point : Point)
    (form : Form point taken rest)
    (progress : s.progress = reached sink past taken point) :
    Tracks source sink (s.goTo point) past taken rest where
  whole := h.whole
  cut := h.cut
  current := h.current
  before := h.before
  start := h.start
  form := form
  progress := progress

/-- The segment ends, after the characters `extra` have been taken. -/
theorem close {s' : Cursor σ} {seg : Segment} (extra : List Char)
    (h : Tracks source sink s past taken (extra ++ rest)) (ne : taken ≠ [])
    (ends : seg.EndsBefore rest) (text : seg.text = taken ++ extra) (point : s'.point = .between)
    (start : s'.start = s.start) (current : s'.current = s.current + byteLength extra)
    (progress : s'.progress = (readAll sink past).read seg) :
    Tracks source sink s' (past ++ [seg]) [] rest where
  whole := by simp [h.whole, text]
  cut := by
    have segments := segments_append ends
    rw [text, List.append_assoc] at segments
    rw [h.cut, segments]
    simp
  current := by
    have behind : passed (past ++ [seg]) = passed past ++ taken ++ extra := by simp [passed, text]
    rw [current, h.current, List.append_nil, behind, byteLength_append _ extra]
  before := by
    refine ⟨passed past, ?_, ?_⟩
    · simp
    · rw [start]
      exact h.start ne
  start := by simp
  form := by
    rw [point]
    exact .between
  progress := by
    rw [progress, point]
    simp [reached, readAll]

theorem slice_eq (h : Tracks source sink s past taken rest) (ne : taken ≠ []) :
    slice source s.start s.current = .ok taken := by
  rw [h.start ne, h.current]
  exact Lexical.slice_eq h.whole

theorem offsets_closed {body : List Char}
    (h : Tracks source sink s past ('"' :: body ++ ['"']) rest) :
    s.start + 1 = byteLength (passed past ++ ['"'])
      ∧ s.current - 1 = byteLength (passed past ++ ['"'] ++ body) := by
  have begins : s.start = byteLength (passed past) := h.start (by simp)
  have stands := h.current
  have quote : Char.utf8Size '"' = 1 := rfl
  simp only [byteLength_append, byteLength_cons, byteLength_nil, quote] at stands ⊢
  omega

/-- A lexeme ends and its token is added. -/
theorem add {kind : Kind} {literal : Option Literal} (extra : List Char)
    (h : Tracks source sink s past taken (extra ++ rest)) (ne : taken ≠ [])
    (ends : (Segment.lexeme kind (taken ++ extra)).EndsBefore rest)
    (hliteral : literal = literalOf kind (taken ++ extra))
    (progress : s.progress = { readAll sink past with
      line := (readAll sink past).line + (Segment.lexeme kind (taken ++ extra)).lineEnds }) :
    ∃ s', Cursor.add source { s with current := s.current + byteLength extra } kind literal = .ok s'
      ∧ s'.point = .between
      ∧ Tracks source sink s' (past ++ [.lexeme kind (taken ++ extra)]) [] rest := by
  have whole : source.toList = passed past ++ ((taken ++ extra) ++ rest) := by
    rw [h.whole, List.append_assoc]
  have current : s.current + byteLength extra = byteLength (passed past ++ (taken ++ extra)) := by
    rw [h.current, ← List.append_assoc, byteLength_append _ extra]
  have text : slice source s.start (s.current + byteLength extra) = .ok (taken ++ extra) := by
    rw [h.start ne, current]
    exact Lexical.slice_eq whole
  simp only [Cursor.add, text, ok_bind]
  refine ⟨_, rfl, rfl, h.close extra ne ends rfl rfl rfl rfl ?_⟩
  rw [progress, hliteral]
  rfl

end Tracks

end Cursor

end Lox.Lexical
