import Lox.Proofs.CursorInvariant

/-!
# One step of the cursor

From any point but the last the next step goes through: `Tracks` holds again, and either a character
has been taken or the rank of the point has gone down.  There is one lemma for each point, and the
loops of the cursor need the most of it: what has been taken already decides where they may stop.
-/

namespace Lox.Lexical

theorem readNumber_of_mem {text : List Char} (h : text ∈ Pattern.number.language) :
    readNumber text = .ok (Decimal.ofText text).round := by
  obtain ⟨c, cs, tail, rfl, hc, hcs, htail⟩ := mem_number.mp h
  have digits : ∀ d ∈ c :: cs, d.isDigit := by simpa using ⟨hc, hcs⟩
  have stops : ∀ d ∈ tail.head?, d.isDigit = false := by
    intro d hd
    rcases htail with rfl | ⟨e, es, rfl, _, _⟩
    · contradiction
    · cases hd
      rfl
  have taken := takeWhile_run digits stops
  have dropped := dropWhile_run digits stops
  rw [List.cons_append] at taken dropped
  have accepted : isNumeral (c :: (cs ++ tail)) = true := by
    rw [isNumeral, taken, dropped]
    rcases htail with rfl | ⟨e, es, rfl, he, hes⟩
    · rfl
    · simpa using ⟨he, hes⟩
  rw [readNumber, if_pos accepted]

theorem toNat_line_lt {n : Nat} (h : n + 1 ≤ UInt32.size - 2) :
    (1 + UInt32.ofNat n).toNat + 1 < UInt32.size := by
  have size : UInt32.size = 4294967296 := rfl
  rw [toNat_one_add (by omega)]
  omega

namespace Cursor

variable {σ : Type} [Sink σ] {source : String} {sink : σ} {s : Cursor σ} {past : List Segment}
  {taken rest : List Char}

/-! ### One step -/

def rank : Point → Nat
  | .done => 0
  | .between => 1
  | .closed | .numeral => 2
  | .comment | .string | .whole | .fraction | .word => 3
  | .begun _ => 4

def weight (point : Point) (rest : List Char) : Nat := 5 * rest.length + rank point

theorem rank_le (point : Point) : rank point ≤ 4 := by
  cases point <;> simp [rank]

/-- The next step is made, takes one character at most and comes closer to the end. -/
def Advances (source : String) (sink : σ) (s : Cursor σ) (rest : List Char) : Prop :=
  ∃ s' past taken rest', s.step source = .ok s' ∧ Tracks source sink s' past taken rest'
    ∧ (rest = rest' ∨ ∃ c, rest = c :: rest') ∧ weight s'.point rest' < weight s.point rest

theorem advances_take {s' : Cursor σ} {c : Char} (hs : s.step source = .ok s')
    (h : Tracks source sink s' past taken rest) : Advances source sink s (c :: rest) := by
  refine ⟨s', past, taken, rest, hs, h, .inr ⟨c, rfl⟩, ?_⟩
  have low := rank_le s'.point
  simp only [weight, List.length_cons]
  omega

theorem advances_turn {s' : Cursor σ} (hs : s.step source = .ok s')
    (h : Tracks source sink s' past taken rest) (lower : rank s'.point < rank s.point) :
    Advances source sink s rest := by
  refine ⟨s', past, taken, rest, hs, h, .inl rfl, ?_⟩
  simp only [weight]
  omega

section Points

variable {start current : Nat} {p : Progress σ}

theorem step_between_cons {c : Char}
    (h : Tracks source sink ⟨.between, start, current, p⟩ past [] (c :: rest)) :
    step source ⟨.between, start, current, p⟩ = .ok ⟨.begun c, current, current + c.utf8Size, p⟩
      ∧ Tracks source sink ⟨.begun c, current, current + c.utf8Size, p⟩ past [c] rest := by
  have behind : current = byteLength (passed past) := by simpa using h.current
  have here : Tracks source sink ⟨.between, current, current, p⟩ past [] (c :: rest) :=
    ⟨h.whole, h.cut, h.current, ⟨passed past, List.prefix_rfl, behind⟩, by simp, h.form,
      h.progress⟩
  constructor
  · simp [step, h.atEnd_cons, here.next_eq, goTo]
  · exact here.take behind rfl .begun h.progress

theorem advances_between (h : Tracks source sink ⟨.between, start, current, p⟩ past taken rest) :
    Advances source sink ⟨.between, start, current, p⟩ rest := by
  have form : Form .between taken rest := h.form
  cases form
  cases rest with
  | nil =>
    have made : step source ⟨.between, start, current, p⟩
        = .ok ⟨.done, start, current, p.emit (Token.endOfSource p.line)⟩ := by
      simp [step, h.atEnd_nil]
    have progress : p.emit (Token.endOfSource p.line) = reached sink past [] .done := by
      have progress : p = readAll sink past := h.progress
      rw [progress]
      rfl
    have tracks : Tracks source sink ⟨.done, start, current, _⟩ past [] [] :=
      ⟨h.whole, h.cut, h.current, h.before, h.start, .done, progress⟩
    exact advances_turn made tracks (by simp [rank])
  | cons c rest =>
    obtain ⟨made, tracks⟩ := step_between_cons h
    exact advances_take made tracks

theorem advances_comment (h : Tracks source sink ⟨.comment, start, current, p⟩ past taken rest) :
    Advances source sink ⟨.comment, start, current, p⟩ rest := by
  have ne := h.ne_nil (by simp) (by simp)
  have form : Form .comment taken rest := h.form
  cases form with | @comment body rest hbody
  have closes (hrest : ∀ c ∈ rest.head?, c = '\n')
      (made : step source ⟨.comment, start, current, p⟩ = .ok ⟨.between, start, current, p⟩) :
      Advances source sink ⟨.comment, start, current, p⟩ rest := by
    have none : '\n' ∉ (Segment.comment body).text := by simpa [Segment.text] using hbody
    have read : (readAll sink past).read (.comment body) = readAll sink past := by
      simp [Progress.read, lineEnds_eq_zero none]
    have progress : p = readAll sink past := h.progress
    refine advances_turn made (h.close [] ne (.comment hbody hrest) ?_ rfl rfl rfl ?_) ?_
    · rw [List.append_nil, Segment.text]
    · rw [read, progress]
    · simp [rank]
  cases rest with
  | nil =>
    apply closes (by simp)
    simp [step, h.peek_eq, h.atEnd_nil, goTo]
  | cons c rest =>
    by_cases hc : c = '\n'
    · apply closes (by simpa using hc)
      simp [step, h.peek_eq, hc, goTo]
    · have made : step source ⟨.comment, start, current, p⟩
          = .ok ⟨.comment, start, current + c.utf8Size, p⟩ := by
        simp [step, h.peek_eq, h.next_eq, h.atEnd_cons, hc]
      have form : Form .comment ('/' :: '/' :: (body ++ [c])) rest :=
        .comment (by simpa using ⟨hbody, Ne.symm hc⟩)
      exact advances_take made (h.take (h.start ne) rfl form h.progress)

theorem advances_string (small : newlines source.toList ≤ UInt32.size - 2)
    (h : Tracks source sink ⟨.string, start, current, p⟩ past taken rest) :
    Advances source sink ⟨.string, start, current, p⟩ rest := by
  have ne := h.ne_nil (by simp) (by simp)
  have form : Form .string taken rest := h.form
  have progress : p = reached sink past taken .string := h.progress
  cases form with | @string body rest hbody
  cases rest with
  | nil =>
    have made : step source ⟨.string, start, current, p⟩
        = .ok ⟨.between, start, current, p.fault (.unterminatedString p.line)⟩ := by
      simp [step, h.peek_eq, h.atEnd_nil, complain]
    refine advances_turn made (h.close [] ne (.openString hbody) ?_ rfl rfl rfl ?_) ?_
    · rw [List.append_nil, Segment.text]
    · rw [progress]
      rfl
    · simp [rank]
  | cons c rest =>
    by_cases hc : c = '"'
    · subst hc
      have made : step source ⟨.string, start, current, p⟩
          = .ok ⟨.closed, start, current + Char.utf8Size '"', p⟩ := by
        simp [step, h.peek_eq, h.next_eq, h.atEnd_cons, goTo]
      have form : Form .closed ('"' :: body ++ ['"']) rest := .closed hbody
      refine advances_take made (h.take (h.start ne) rfl form ?_)
      simp [progress, reached, newlines]
    · have form : Form .string ('"' :: (body ++ [c])) rest :=
        .string (by simpa using ⟨hbody, Ne.symm hc⟩)
      by_cases hline : c = '\n'
      · subst hline
        have count : newlines source.toList = newlines (passed past) + newlines ('"' :: body)
            + (1 + newlines rest) := by
          rw [h.whole, newlines_append, newlines_append, ← Nat.add_assoc]
          simp [newlines, Nat.add_comm]
        have made : step source ⟨.string, start, current, p⟩
            = .ok ⟨.string, start, current + Char.utf8Size '\n', { p with line := p.line + 1 }⟩ := by
          have fits : p.line.toNat + 1 < UInt32.size := by
            have line := line_reached_string sink past ('"' :: body)
            rw [progress, line]
            exact toNat_line_lt (by omega)
          simp only [step, h.peek_eq, h.next_eq, h.atEnd_cons, ok_bind]
          simp [newLine, fits]
        refine advances_take made (h.take (h.start ne) rfl form ?_)
        simp [progress, reached, newlines, UInt32.add_assoc, UInt32.ofNat_add]
      · have made : step source ⟨.string, start, current, p⟩
            = .ok ⟨.string, start, current + c.utf8Size, p⟩ := by
          simp [step, h.peek_eq, h.next_eq, h.atEnd_cons, hc, hline]
        refine advances_take made (h.take (h.start ne) rfl form ?_)
        simp [progress, reached, newlines, hline]

/-- The lexeme that has been taken is added, and the cursor is between two segments again. -/
theorem advances_add {s : Cursor σ} {kind : Kind} {literal : Option Literal}
    (h : Tracks source sink s past taken rest) (ne : taken ≠ [])
    (ends : (Segment.lexeme kind taken).EndsBefore rest) (hliteral : literal = literalOf kind taken)
    (progress : s.progress = { readAll sink past with
      line := (readAll sink past).line + (Segment.lexeme kind taken).lineEnds })
    (high : 1 < rank s.point) (made : s.step source = s.add source kind literal) :
    Advances source sink s rest := by
  subst hliteral
  have same : taken ++ [] = taken := List.append_nil taken
  obtain ⟨s', added, point, tracks⟩ := h.add [] ne (by rwa [same]) rfl (by rwa [same])
  rw [same] at added tracks
  refine advances_turn (made.trans added) tracks ?_
  rw [point]
  exact high

theorem advances_closed (h : Tracks source sink ⟨.closed, start, current, p⟩ past taken rest) :
    Advances source sink ⟨.closed, start, current, p⟩ rest := by
  have ne := h.ne_nil (by simp) (by simp)
  have form : Form .closed taken rest := h.form
  cases form with | @closed body rest hbody
  obtain ⟨first, last⟩ := h.offsets_closed
  have whole : source.toList = (passed past ++ ['"']) ++ (body ++ '"' :: rest) := by
    simpa using h.whole
  have inside : slice source (start + 1) (current - 1) = .ok body := by
    rw [first, last]
    exact Lexical.slice_eq whole
  have made : step source ⟨.closed, start, current, p⟩
      = Cursor.add source ⟨.closed, start, current, p⟩ .string
        (some (.text (String.ofList body))) := by
    simp only [step, inside, ok_bind]
  exact advances_add h ne (.string hbody) (literalOf_string body).symm h.progress (by simp [rank])
    made

theorem advances_numeral (h : Tracks source sink ⟨.numeral, start, current, p⟩ past taken rest) :
    Advances source sink ⟨.numeral, start, current, p⟩ rest := by
  have ne := h.ne_nil (by simp) (by simp)
  have form : Form .numeral taken rest := h.form
  cases form with | numeral ends
  have read := readNumber_of_mem (mem_ofKind ends)
  have text := h.slice_eq ne
  have made : step source ⟨.numeral, start, current, p⟩
      = Cursor.add source ⟨.numeral, start, current, p⟩ .number
        (some (.number (Decimal.ofText taken).round)) := by
    simp only [step, text, read, ok_bind]
  refine advances_add h ne ends rfl ?_ (by simp [rank]) made
  exact h.progress.trans (line_unchanged ends (by simp) _)

theorem advances_word (h : Tracks source sink ⟨.word, start, current, p⟩ past taken rest) :
    Advances source sink ⟨.word, start, current, p⟩ rest := by
  have ne := h.ne_nil (by simp) (by simp)
  have form : Form .word taken rest := h.form
  cases form with | @word c cs rest hc hcs
  have closes (hrest : ∀ d ∈ rest.head?, isWordChar d = false)
      (stops : isWordChar (rest.headD '\x00') = false) :
      Advances source sink ⟨.word, start, current, p⟩ rest := by
    have ends := Segment.EndsBefore.word hc hcs hrest
    have text := h.slice_eq ne
    have made : step source ⟨.word, start, current, p⟩
        = Cursor.add source ⟨.word, start, current, p⟩ (Kind.ofWord (String.ofList (c :: cs)))
          none := by
      simp only [step, h.peek_eq, stops, text, ok_bind]
      rfl
    refine advances_add h ne ends (literalOf_ofWord _ _).symm ?_ (by simp [rank]) made
    exact h.progress.trans (line_unchanged ends (ofWord_ne_string _) _)
  cases rest with
  | nil => exact closes (by simp) rfl
  | cons d rest =>
    by_cases hd : isWordChar d
    · have made : step source ⟨.word, start, current, p⟩
          = .ok ⟨.word, start, current + d.utf8Size, p⟩ := by
        simp [step, h.peek_eq, h.next_eq, hd]
      have longer : ∀ e ∈ cs ++ [d], isWordChar e :=
        List.forall_mem_append.mpr ⟨hcs, List.forall_mem_singleton.mpr hd⟩
      have form : Form .word (c :: (cs ++ [d])) rest := .word hc longer
      exact advances_take made (h.take (h.start ne) rfl form h.progress)
    · have stops : isWordChar d = false := by simpa using hd
      exact closes (by simpa using stops) stops

theorem advances_fraction (h : Tracks source sink ⟨.fraction, start, current, p⟩ past taken rest) :
    Advances source sink ⟨.fraction, start, current, p⟩ rest := by
  have ne := h.ne_nil (by simp) (by simp)
  have form : Form .fraction taken rest := h.form
  have takes {d : Char} {tail : List Char} (hrest : rest = d :: tail) (hd : d.isDigit)
      (longer : Form .fraction (taken ++ [d]) tail) :
      Advances source sink ⟨.fraction, start, current, p⟩ rest := by
    subst hrest
    have made : step source ⟨.fraction, start, current, p⟩
        = .ok ⟨.fraction, start, current + d.utf8Size, p⟩ := by
      simp [step, h.peek_eq, h.next_eq, hd, goTo]
    exact advances_take made (h.take (h.start ne) rfl longer h.progress)
  cases form with
  | @point c cs d rest hc hcs hd =>
    have form : Form .fraction (c :: cs ++ '.' :: d :: []) rest := .fraction hc hcs hd (by simp)
    exact takes rfl hd (by simpa using form)
  | @fraction c cs d ds rest hc hcs hd hds =>
    have closes (hrest : ∀ e ∈ rest.head?, e.isDigit = false)
        (stops : (rest.headD '\x00').isDigit = false) :
        Advances source sink ⟨.fraction, start, current, p⟩ rest := by
      have made : step source ⟨.fraction, start, current, p⟩ = .ok ⟨.numeral, start, current, p⟩ := by
        simp only [step, h.peek_eq, stops, ok_bind]
        rfl
      have form : Form .numeral (c :: cs ++ '.' :: d :: ds) rest :=
        .numeral (.decimal hc hcs hd hds hrest)
      exact advances_turn made (h.turn .numeral form h.progress) (by simp [rank])
    cases rest with
    | nil => exact closes (by simp) rfl
    | cons e rest =>
      by_cases he : e.isDigit
      · have longer : ∀ x ∈ ds ++ [e], x.isDigit :=
          List.forall_mem_append.mpr ⟨hds, List.forall_mem_singleton.mpr he⟩
        have form : Form .fraction (c :: cs ++ '.' :: d :: (ds ++ [e])) rest :=
          .fraction hc hcs hd longer
        exact takes rfl he (by simpa using form)
      · have stops : e.isDigit = false := by simpa using he
        exact closes (by simpa using stops) stops

theorem advances_whole (h : Tracks source sink ⟨.whole, start, current, p⟩ past taken rest) :
    Advances source sink ⟨.whole, start, current, p⟩ rest := by
  have ne := h.ne_nil (by simp) (by simp)
  have form : Form .whole taken rest := h.form
  cases form with | @whole c cs rest hc hcs
  have closes (hrest : ∀ d ∈ rest.head?, d.isDigit = false)
      (hpoint : ∀ d tail, rest = '.' :: d :: tail → d.isDigit = false)
      (made : step source ⟨.whole, start, current, p⟩ = .ok ⟨.numeral, start, current, p⟩) :
      Advances source sink ⟨.whole, start, current, p⟩ rest := by
    have form : Form .numeral (c :: cs) rest := .numeral (.whole hc hcs hrest hpoint)
    exact advances_turn made (h.turn .numeral form h.progress) (by simp [rank])
  cases rest with
  | nil =>
    apply closes (by simp) (by simp)
    simp [step, h.peek_eq, goTo]
  | cons d rest =>
    by_cases hd : d.isDigit
    · have made : step source ⟨.whole, start, current, p⟩
          = .ok ⟨.whole, start, current + d.utf8Size, p⟩ := by
        simp [step, h.peek_eq, h.next_eq, hd, goTo]
      have longer : ∀ x ∈ cs ++ [d], x.isDigit :=
        List.forall_mem_append.mpr ⟨hcs, List.forall_mem_singleton.mpr hd⟩
      have form : Form .whole (c :: (cs ++ [d])) rest := .whole hc longer
      exact advances_take made (h.take (h.start ne) rfl form h.progress)
    · have stops : d.isDigit = false := by simpa using hd
      by_cases hpoint : d = '.'
      · -- Only with a digit after it does the point belong to the number.
        subst hpoint
        by_cases hnext : (rest.headD '\x00').isDigit
        · have made : step source ⟨.whole, start, current, p⟩
              = .ok ⟨.fraction, start, current + Char.utf8Size '.', p⟩ := by
            simp only [step, h.peek_eq, h.peekNext_eq, h.next_eq, ok_bind, List.headD_cons,
              List.tail_cons, hnext]
            rfl
          have form : Form .fraction (c :: cs ++ ['.']) rest := by
            cases rest with
            | nil => contradiction
            | cons e tail => exact .point hc hcs hnext
          exact advances_take made (h.take (h.start ne) rfl form h.progress)
        · refine closes (by simp) ?_ ?_
          · intro e tail he
            cases he
            simpa using hnext
          · simp only [step, h.peek_eq, h.peekNext_eq, ok_bind, List.headD_cons, List.tail_cons,
              hnext]
            rfl
      · refine closes (by simpa using stops) ?_ ?_
        · intro e tail he
          cases he
          contradiction
        · simp [step, h.peek_eq, stops, hpoint, goTo]

/-! ### The first character of a segment -/

theorem line_fits (small : newlines source.toList ≤ UInt32.size - 2)
    (h : Tracks source sink ⟨.begun '\n', start, current, p⟩ past ['\n'] rest) :
    p.line.toNat + 1 < UInt32.size := by
  have count : newlines source.toList = newlines (passed past) + (1 + newlines rest) := by
    rw [h.whole, newlines_append, newlines_append]
    rfl
  have progress : p = readAll sink past := h.progress
  rw [progress, line_readAll]
  exact toNat_line_lt (by omega)

theorem advances_blank {c : Char} (small : newlines source.toList ≤ UInt32.size - 2)
    (h : Tracks source sink ⟨.begun c, start, current, p⟩ past [c] rest)
    (hc : classify c = .blank) : Advances source sink ⟨.begun c, start, current, p⟩ rest := by
  have ends : (Segment.blank c).EndsBefore rest := .blank (isBlank_of_classify hc)
  have progress : p = readAll sink past := h.progress
  by_cases hline : c = '\n'
  · subst hline
    have fits := line_fits small h
    have made : step source ⟨.begun '\n', start, current, p⟩
        = .ok ⟨.between, start, current, { p with line := p.line + 1 }⟩ := by
      simp only [step, dispatch, hc, newLine, goTo, fits, ↓reduceIte]
    refine advances_turn made (h.close [] (by simp) ends rfl rfl rfl rfl ?_) (by simp [rank])
    rw [progress]
    rfl
  · have made : step source ⟨.begun c, start, current, p⟩ = .ok ⟨.between, start, current, p⟩ := by
      simp only [step, dispatch, hc, hline, goTo, ↓reduceIte]
    have none : (Segment.blank c).lineEnds = 0 :=
      lineEnds_eq_zero (by simpa [Segment.text] using Ne.symm hline)
    refine advances_turn made (h.close [] (by simp) ends rfl rfl rfl rfl ?_) (by simp [rank])
    simp [progress, Progress.read, none]

theorem ne_string_of_symbol {text : List Char} {kind : Kind} (listed : (text, kind) ∈ symbols) :
    kind ≠ .string := by
  intro same
  subst same
  have other := ofKind_of_symbol listed
  contradiction

theorem advances_symbol {s : Cursor σ} {kind : Kind}
    (h : Tracks source sink s past taken rest) (ne : taken ≠ [])
    (ends : (Segment.lexeme kind taken).EndsBefore rest) (listed : (taken, kind) ∈ symbols)
    (progress : s.progress = readAll sink past) (high : 1 < rank s.point)
    (made : s.step source = s.add source kind none) : Advances source sink s rest := by
  have literal := (literalOf_of_symbol (ofKind_of_symbol listed) taken).symm
  refine advances_add h ne ends literal ?_ high made
  exact progress.trans (line_unchanged ends (ne_string_of_symbol listed) _)

theorem advances_slash (h : Tracks source sink ⟨.begun '/', start, current, p⟩ past ['/'] rest) :
    Advances source sink ⟨.begun '/', start, current, p⟩ rest := by
  have hc : classify '/' = .slash := rfl
  by_cases hrest : rest.head? = some '/'
  · obtain ⟨tail, rfl⟩ : ∃ tail, rest = '/' :: tail := List.head?_eq_some_iff.mp hrest
    have made : step source ⟨.begun '/', start, current, p⟩
        = .ok ⟨.comment, start, current + Char.utf8Size '/', p⟩ := by
      simp [step, dispatch, hc, h.takeIf_true, goTo]
    have form : Form .comment ['/', '/'] tail := .comment (by simp)
    exact advances_take made (h.take (h.start (by simp)) rfl form h.progress)
  · have made : step source ⟨.begun '/', start, current, p⟩
        = Cursor.add source ⟨.begun '/', start, current, p⟩ .slash none := by
      simp [step, dispatch, hc, h.takeIf_false hrest, goTo]
    exact advances_symbol h (by simp) (.slash hrest) (by decide) h.progress (by simp [rank]) made

theorem advances_operator {c : Char} {alone withEqual : Kind}
    (h : Tracks source sink ⟨.begun c, start, current, p⟩ past [c] rest)
    (hc : classify c = .operator alone withEqual) :
    Advances source sink ⟨.begun c, start, current, p⟩ rest := by
  have listed := mem_symbols_of_operator hc
  by_cases hrest : rest.head? = some '='
  · obtain ⟨tail, rfl⟩ : ∃ tail, rest = '=' :: tail := List.head?_eq_some_iff.mp hrest
    have ends : (Segment.lexeme withEqual ([c] ++ ['='])).EndsBefore tail := .withEqual hc
    have literal := (literalOf_of_symbol (ofKind_of_symbol listed.2) ([c] ++ ['='])).symm
    have progress : p = readAll sink past := h.progress
    have line := line_unchanged ends (ne_string_of_symbol listed.2) (readAll sink past)
    obtain ⟨s', added, point, tracks⟩ :=
      Tracks.add ['='] h (by simp) ends literal (progress.trans line)
    have made : step source ⟨.begun c, start, current, p⟩ = .ok s' := by
      rw [← added]
      simp [step, dispatch, hc, h.takeIf_true]
    exact advances_take made tracks
  · have made : step source ⟨.begun c, start, current, p⟩
        = Cursor.add source ⟨.begun c, start, current, p⟩ alone none := by
      simp [step, dispatch, hc, h.takeIf_false hrest]
    exact advances_symbol h (by simp) (.alone hc hrest) listed.1 h.progress (by simp [rank]) made

theorem advances_begun {c : Char} (small : newlines source.toList ≤ UInt32.size - 2)
    (h : Tracks source sink ⟨.begun c, start, current, p⟩ past taken rest) :
    Advances source sink ⟨.begun c, start, current, p⟩ rest := by
  have form : Form (.begun c) taken rest := h.form
  cases form
  have turns {point : Point} (made : step source ⟨.begun c, start, current, p⟩
      = .ok ⟨point, start, current, p⟩) (form : Form point [c] rest)
      (progress : p = reached sink past [c] point) (lower : rank point < 4) :
      Advances source sink ⟨.begun c, start, current, p⟩ rest :=
    advances_turn made (h.turn point form progress) lower
  cases hc : classify c with
  | blank => exact advances_blank small h hc
  | digit =>
    have form : Form .whole [c] rest := .whole (isDigit_of_classify hc) (by simp)
    exact turns (by simp only [step, dispatch, hc, goTo]) form h.progress (by simp [rank])
  | letter =>
    have form : Form .word [c] rest := .word (isLetter_of_classify hc) (by simp)
    exact turns (by simp only [step, dispatch, hc, goTo]) form h.progress (by simp [rank])
  | quote =>
    obtain rfl := eq_quote_of_classify hc
    have form : Form .string ['"'] rest := .string (by simp)
    have progress : p = readAll sink past := h.progress
    refine turns (by simp only [step, dispatch, hc, goTo]) form ?_ (by simp [rank])
    simp [progress, reached, newlines]
  | slash =>
    obtain rfl := eq_slash_of_classify hc
    exact advances_slash h
  | operator alone withEqual => exact advances_operator h hc
  | punctuator kind =>
    have made : step source ⟨.begun c, start, current, p⟩
        = Cursor.add source ⟨.begun c, start, current, p⟩ kind none := by
      simp only [step, dispatch, hc]
    exact advances_symbol h (by simp) (.punctuator hc) (mem_symbols_of_punctuator hc) h.progress
      (by simp [rank]) made
  | foreign =>
    have progress : p = readAll sink past := h.progress
    have differs := ne_newline_of_classify (c := c) (by rw [hc]; simp)
    have none : (Segment.foreign c).lineEnds = 0 :=
      lineEnds_eq_zero (by simpa [Segment.text] using differs.symm)
    have made : step source ⟨.begun c, start, current, p⟩
        = .ok ⟨.between, start, current, p.fault (.unexpectedCharacter c p.line)⟩ := by
      simp only [step, dispatch, hc, complain]
    refine advances_turn made (h.close [] (by simp) (.foreign hc) rfl rfl rfl rfl ?_)
      (by simp [rank])
    simp [progress, Progress.read, none]

/-- Every step but the last goes through and comes closer to the end. -/
theorem Tracks.advances {s : Cursor σ} (small : newlines source.toList ≤ UInt32.size - 2)
    (h : Tracks source sink s past taken rest) (hd : s.point ≠ .done) :
    Advances source sink s rest := by
  obtain ⟨point, start, current, p⟩ := s
  cases point with
  | between => exact advances_between h
  | begun c => exact advances_begun small h
  | comment => exact advances_comment h
  | string => exact advances_string small h
  | closed => exact advances_closed h
  | whole => exact advances_whole h
  | fraction => exact advances_fraction h
  | numeral => exact advances_numeral h
  | word => exact advances_word h
  | done => exact absurd rfl hd

end Points

end Cursor

end Lox.Lexical
