import Lox.Proofs.Continuation
import Lox.Proofs.LineNumbers
import Lox.Proofs.ScriptRun

/-!
# The reports as seen by an automaton

The reports of a scan can be found without any notion of a token: an automaton with four modes and a
line counter reads the source once, character by character and without looking ahead.  The scan goes
by whole segments.  Both are followed from one segment to the next; there the automaton is in code, or
has just read a lone slash or the last character of a comment, which the next character makes up for.
-/

namespace Lox.Lexical

/-! ### The automaton -/

/-- The characters, other than letters and digits, that can stand outside strings and comments. -/
def signs : List Char :=
  ['(', ')', '\x7b', '\x7d', ',', '.', '-', '+', ';', '*', '!', '=', '<', '>', '"', '/',
    ' ', '\t', '\r', '\n']

def InAlphabet (c : Char) : Prop := Letter c ∨ Digit c ∨ c ∈ signs

instance (c : Char) : Decidable (InAlphabet c) :=
  inferInstanceAs (Decidable ((_ ∧ _ ∨ _ ∧ _ ∨ _) ∨ _ ∧ _ ∨ _))

inductive Mode where
  | code
  | slash
  | comment
  | string
  deriving DecidableEq, Repr

namespace Mode

def next (c : Char) : Mode → Mode
  | code => if c = '"' then string else if c = '/' then slash else code
  | slash => if c = '"' then string else if c = '/' then comment else code
  | comment => if c = '\n' then code else comment
  | string => if c = '"' then code else string

def refuses (c : Char) : Mode → Bool
  | code | slash => !decide (InAlphabet c)
  | comment | string => false

end Mode

structure Watch where
  mode : Mode
  line : Nat
  noted : List (Nat × String)
  deriving DecidableEq, Repr

namespace Watch

def unexpected (c : Char) : String := "Unexpected character '" ++ c.toString ++ "'"

def step (w : Watch) (c : Char) : Watch where
  mode := w.mode.next c
  line := if c = '\n' then w.line + 1 else w.line
  noted := if w.mode.refuses c then w.noted ++ [(w.line, unexpected c)] else w.noted

def close (w : Watch) : List (Nat × String) :=
  if w.mode = .string then w.noted ++ [(w.line, "Unterminated string")] else w.noted

end Watch

/-- What the automaton notes of a source: lines and messages. -/
def watch (source : String) : List (Nat × String) :=
  (source.toList.foldl Watch.step ⟨.code, 1, []⟩).close

/-! ### The alphabet -/

theorem mem_signs_of_isBlank {c : Char} (h : isBlank c) : c ∈ signs := by
  rcases isBlank_iff.mp h with rfl | rfl | rfl | rfl <;> decide

theorem inAlphabet_of_isWordChar {c : Char} (h : isWordChar c) : InAlphabet c := by
  rcases letter_or_digit_iff.mpr h with letter | digit
  · exact .inl letter
  · exact .inr (.inl digit)

/-- Just the characters outside the alphabet are foreign. -/
theorem classify_eq_foreign_iff {c : Char} : classify c = .foreign ↔ ¬ InAlphabet c := by
  constructor
  · rintro foreign (letter | digit | sign)
    · rw [classify_of_isLetter (letter_iff.mp letter)] at foreign
      contradiction
    · rw [classify_of_isDigit (digit_iff.mp digit)] at foreign
      contradiction
    · have none : .foreign ∉ signs.map classify := by decide
      exact none (foreign ▸ List.mem_map_of_mem sign)
  · intro outside
    rcases classify_cases c with ⟨blank, _⟩ | ⟨digit, _⟩ | ⟨letter, _⟩ | mark | foreign
    · exact absurd (.inr (.inr (mem_signs_of_isBlank blank))) outside
    · exact absurd (inAlphabet_of_isWordChar (isWordChar_of_isDigit digit)) outside
    · exact absurd (inAlphabet_of_isWordChar (isWordChar_of_isLetter letter)) outside
    · have all : ∀ m ∈ marks, m.1 ∈ signs := by decide
      exact absurd (.inr (.inr (all _ mark))) outside
    · exact foreign

/-- The character neither opens anything nor is refused. -/
structure Quiet (c : Char) : Prop where
  inside : InAlphabet c
  noQuote : c ≠ '"'
  noSlash : c ≠ '/'

instance (c : Char) : Decidable (Quiet c) :=
  decidable_of_iff (InAlphabet c ∧ c ≠ '"' ∧ c ≠ '/')
    ⟨fun ⟨inside, noQuote, noSlash⟩ => ⟨inside, noQuote, noSlash⟩,
      fun quiet => ⟨quiet.inside, quiet.noQuote, quiet.noSlash⟩⟩

theorem quiet_of_isWordChar {c : Char} (h : isWordChar c) : Quiet c where
  inside := inAlphabet_of_isWordChar h
  noQuote := by
    rintro rfl
    contradiction
  noSlash := (ne_mark_of_isWordChar h).2.1

theorem quiet_of_isDigit {c : Char} (h : c.isDigit) : Quiet c :=
  quiet_of_isWordChar (isWordChar_of_isDigit h)

theorem quiet_of_isBlank {c : Char} (h : isBlank c) : Quiet c := by
  rcases isBlank_iff.mp h with rfl | rfl | rfl | rfl <;> decide

theorem quiet_of_punctuator {c : Char} {kind : Kind} (h : classify c = .punctuator kind) :
    Quiet c ∧ kind ≠ .slash := by
  have all : ∀ m ∈ marks, ∀ k ∈ Kind.all, m.2 = .punctuator k → Quiet m.1 ∧ k ≠ .slash := by
    decide +kernel
  exact all _ (mem_marks_of_classify h nofun nofun nofun nofun) kind (Kind.mem_all kind) rfl

theorem ofWord_ne_slash (word : String) : Kind.ofWord word ≠ .slash := by
  intro same
  have isWord := isWord_ofWord word
  rw [same] at isWord
  contradiction

theorem quiet_of_operator {c : Char} {alone withEqual : Kind}
    (h : classify c = .operator alone withEqual) :
    Quiet c ∧ alone ≠ .slash ∧ withEqual ≠ .slash := by
  have mark := mem_marks_of_classify h nofun nofun nofun nofun
  simp only [marks, List.mem_cons, Prod.mk.injEq, reduceCtorEq, and_false, false_or, or_false,
    CharClass.operator.injEq, List.not_mem_nil] at mark
  rcases mark with ⟨rfl, rfl, rfl⟩ | ⟨rfl, rfl, rfl⟩ | ⟨rfl, rfl, rfl⟩ | ⟨rfl, rfl, rfl⟩ <;> decide

/-! ### Runs of characters -/

section Runs

variable {n : Nat} {noted : List (Nat × String)} {cs : List Char}

theorem foldl_quiet (h : ∀ c ∈ cs, Quiet c) :
    cs.foldl Watch.step ⟨.code, n, noted⟩ = ⟨.code, n + newlines cs, noted⟩ := by
  induction cs generalizing n with
  | nil => rfl
  | cons c cs ih =>
    obtain ⟨here, later⟩ := List.forall_mem_cons.mp h
    have step : Watch.step ⟨.code, n, noted⟩ c = ⟨.code, n + newlines [c], noted⟩ := by
      simp only [Watch.step, Mode.next, Mode.refuses, here.inside, if_neg here.noQuote,
        if_neg here.noSlash, newlines, List.count_singleton, beq_iff_eq]
      split <;> rfl
    rw [List.foldl_cons, step, ih later, Nat.add_assoc, ← newlines_append]
    rfl

theorem foldl_comment (h : '\n' ∉ cs) :
    cs.foldl Watch.step ⟨.comment, n, noted⟩ = ⟨.comment, n, noted⟩ := by
  induction cs with
  | nil => rfl
  | cons c cs ih =>
    obtain ⟨differs, later⟩ := not_or.mp (mt List.mem_cons.mpr h)
    have step : Watch.step ⟨.comment, n, noted⟩ c = ⟨.comment, n, noted⟩ := by
      simp [Watch.step, Mode.next, Mode.refuses, Ne.symm differs]
    rw [List.foldl_cons, step, ih later]

theorem foldl_string (h : '"' ∉ cs) :
    cs.foldl Watch.step ⟨.string, n, noted⟩ = ⟨.string, n + newlines cs, noted⟩ := by
  induction cs generalizing n with
  | nil => rfl
  | cons c cs ih =>
    obtain ⟨differs, later⟩ := not_or.mp (mt List.mem_cons.mpr h)
    have step : Watch.step ⟨.string, n, noted⟩ c = ⟨.string, n + newlines [c], noted⟩ := by
      simp only [Watch.step, Mode.next, Mode.refuses, if_neg (Ne.symm differs), newlines,
        List.count_singleton, beq_iff_eq]
      split <;> rfl
    rw [List.foldl_cons, step, ih later, Nat.add_assoc, ← newlines_append]
    rfl

end Runs

/-! ### One segment -/

/-- The mode in which the automaton is left by a segment that it began in code. -/
def modeAfter : Segment → Mode
  | .comment _ => .comment
  | .lexeme .slash _ => .slash
  | .openString _ => .string
  | _ => .code

theorem modeAfter_lexeme {kind : Kind} (h : kind ≠ .slash) (characters : List Char) :
    modeAfter (.lexeme kind characters) = .code := by
  cases kind <;> first | rfl | contradiction

section Segments

variable {n : Nat} {noted : List (Nat × String)}

theorem foldl_lexeme {kind : Kind} {cs : List Char} (plain : kind ≠ .slash)
    (quiet : ∀ c ∈ cs, Quiet c) :
    (Segment.lexeme kind cs).text.foldl Watch.step ⟨.code, n, noted⟩
      = ⟨modeAfter (.lexeme kind cs), n + newlines cs, noted⟩ := by
  rw [modeAfter_lexeme plain]
  exact foldl_quiet quiet

theorem foldl_foreign {c : Char} (hc : classify c = .foreign) :
    (Segment.foreign c).text.foldl Watch.step ⟨.code, n, noted⟩
      = ⟨.code, n, noted ++ [(n, Watch.unexpected c)]⟩ := by
  have outside := classify_eq_foreign_iff.mp hc
  have other : c ∉ signs := fun sign => outside (.inr (.inr sign))
  have differs : ∀ s ∈ signs, c ≠ s := fun s hs same => other (same ▸ hs)
  have noQuote : c ≠ '"' := differs _ (by decide)
  have noSlash : c ≠ '/' := differs _ (by decide)
  have noNewline : c ≠ '\n' := differs _ (by decide)
  show Watch.step ⟨.code, n, noted⟩ c = _
  simp [Watch.step, Mode.next, Mode.refuses, outside, noQuote, noSlash, noNewline]

/-- The automaton goes past a segment other than a foreign character without noting anything. -/
theorem foldl_segment {seg : Segment} {rest : List Char} (h : seg.EndsBefore rest)
    (known : ∀ c, seg ≠ .foreign c) :
    seg.text.foldl Watch.step ⟨.code, n, noted⟩
      = ⟨modeAfter seg, n + newlines seg.text, noted⟩ := by
  cases h with
  | blank hc => exact foldl_quiet (List.forall_mem_singleton.mpr (quiet_of_isBlank hc))
  | @comment body _ hbody _ =>
    have none : newlines (Segment.comment body).text = 0 := by
      simpa [newlines, Segment.text, List.count_eq_zero] using hbody
    rw [none]
    exact foldl_comment hbody
  | punctuator hc =>
    obtain ⟨quiet, plain⟩ := quiet_of_punctuator hc
    exact foldl_lexeme plain (List.forall_mem_singleton.mpr quiet)
  | alone hc hrest =>
    obtain ⟨quiet, plain, _⟩ := quiet_of_operator hc
    exact foldl_lexeme plain (List.forall_mem_singleton.mpr quiet)
  | withEqual hc =>
    obtain ⟨quiet, _, plain⟩ := quiet_of_operator hc
    have equal : Quiet '=' := by decide
    exact foldl_lexeme plain (List.forall_mem_cons.mpr ⟨quiet, List.forall_mem_singleton.mpr equal⟩)
  | slash hrest => rfl
  | word hc hcs hrest =>
    refine foldl_lexeme (ofWord_ne_slash _) (List.forall_mem_cons.mpr ⟨?_, ?_⟩)
    · exact quiet_of_isWordChar (isWordChar_of_isLetter hc)
    · exact fun d hd => quiet_of_isWordChar (hcs d hd)
  | whole hc hcs hrest hpoint =>
    refine foldl_lexeme (by decide) (List.forall_mem_cons.mpr ⟨quiet_of_isDigit hc, ?_⟩)
    exact fun d hd => quiet_of_isDigit (hcs d hd)
  | decimal hc hcs hd hds hrest =>
    have point : Quiet '.' := by decide
    refine foldl_lexeme (by decide) (List.forall_mem_append.mpr ⟨?_, ?_⟩)
    · exact List.forall_mem_cons.mpr ⟨quiet_of_isDigit hc, fun e he => quiet_of_isDigit (hcs e he)⟩
    · exact List.forall_mem_cons.mpr ⟨point, List.forall_mem_cons.mpr
        ⟨quiet_of_isDigit hd, fun e he => quiet_of_isDigit (hds e he)⟩⟩
  | @string body _ hbody =>
    have closed (m : Nat) : Watch.step ⟨.string, m, noted⟩ '"' = ⟨.code, m, noted⟩ := rfl
    have count : newlines (Segment.lexeme .string ('"' :: body ++ ['"'])).text = newlines body := by
      simp [newlines, Segment.text]
    show (body ++ ['"']).foldl Watch.step ⟨.string, n, noted⟩ = _
    rw [count, List.foldl_append, foldl_string hbody, List.foldl_cons, closed]
    rfl
  | @foreign c _ hc => exact absurd rfl (known c)
  | @openString body hbody =>
    have count : newlines (Segment.openString body).text = newlines body := by
      simp [newlines, Segment.text]
    show body.foldl Watch.step ⟨.string, n, noted⟩ = _
    rw [count, foldl_string hbody]
    rfl

end Segments

/-! ### Between two segments -/

/-- In the mode, with the text to come, the automaton does as it would do in code. -/
inductive Idle : Mode → List Char → Prop
  | code {rest} : Idle .code rest
  | slash {rest} (hrest : rest.head? ≠ some '/') : Idle .slash rest
  | comment {rest} (hrest : ∀ c ∈ rest.head?, c = '\n') : Idle .comment rest

theorem idle_modeAfter {seg : Segment} {rest : List Char} (h : seg.EndsBefore rest)
    (closed : ∀ body, seg ≠ .openString body) : Idle (modeAfter seg) rest := by
  have lexeme {kind : Kind} (plain : kind ≠ .slash) (cs : List Char) :
      Idle (modeAfter (.lexeme kind cs)) rest := by
    rw [modeAfter_lexeme plain]
    exact .code
  cases h with
  | comment hbody hrest => exact .comment hrest
  | punctuator hc => exact lexeme (quiet_of_punctuator hc).2 _
  | alone hc hrest => exact lexeme (quiet_of_operator hc).2.1 _
  | withEqual hc => exact lexeme (quiet_of_operator hc).2.2 _
  | slash hrest => exact .slash hrest
  | word hc hcs hrest => exact lexeme (ofWord_ne_slash _) _
  | openString hbody => exact absurd rfl (closed _)
  | _ => exact .code

theorem step_idle {m : Mode} {c : Char} {cs : List Char} (h : Idle m (c :: cs)) (n : Nat)
    (noted : List (Nat × String)) :
    Watch.step ⟨m, n, noted⟩ c = Watch.step ⟨.code, n, noted⟩ c := by
  cases h with
  | code => rfl
  | slash hrest =>
    have differs : c ≠ '/' := fun same => hrest (congrArg some same)
    simp [Watch.step, Mode.next, Mode.refuses, differs]
  | comment hrest =>
    obtain rfl := hrest c rfl
    rfl

theorem foldl_idle {m : Mode} {cs : List Char} (filled : cs ≠ []) {rest : List Char}
    (h : Idle m (cs ++ rest)) (n : Nat) (noted : List (Nat × String)) :
    cs.foldl Watch.step ⟨m, n, noted⟩ = cs.foldl Watch.step ⟨.code, n, noted⟩ := by
  obtain ⟨c, cs, rfl⟩ := List.exists_cons_of_ne_nil filled
  rw [List.foldl_cons, List.foldl_cons, step_idle h]

/-! ### A whole source -/

def lineAndMessage (r : Report) : Nat × String := (r.line.toNat, r.message)

theorem classify_of_foreign {c : Char} {rest : List Char}
    (h : (Segment.foreign c).EndsBefore rest) : classify c = .foreign := by
  cases h
  assumption

theorem newlines_foreign {c : Char} {before : List Char} (hc : classify c = .foreign) :
    newlines (before ++ (Segment.foreign c).text) = newlines before := by
  have differs : c ≠ '\n' := by
    rintro rfl
    contradiction
  simp [newlines, Segment.text, differs]

theorem close_foldl {source : String} (small : newlines source.toList ≤ UInt32.size - 2)
    (before cs : List Char) (h : source.toList = before ++ cs) {m : Mode} (idle : Idle m cs)
    (noted : List (Nat × String)) :
    (cs.foldl Watch.step ⟨m, 1 + newlines before, noted⟩).close
      = noted ++ (reportsFrom (1 + UInt32.ofNat (newlines before)) (segments cs)).map
        lineAndMessage := by
  induction cs using source_induction generalizing before m noted with
  | nil =>
    rw [segments_nil, reportsFrom, List.map_nil, List.append_nil]
    cases idle <;> rfl
  | cut seg rest ends ih =>
    have whole : source.toList = before ++ seg.text ++ rest := by rw [h, List.append_assoc]
    have line : 1 + newlines before + newlines seg.text = 1 + newlines (before ++ seg.text) := by
      rw [newlines_append, Nat.add_assoc]
    have number : (1 + UInt32.ofNat (newlines (before ++ seg.text))).toNat
        = 1 + newlines (before ++ seg.text) := by
      apply toNat_one_add
      rw [whole, newlines_append] at small
      omega
    rw [List.foldl_append, foldl_idle ends.text_ne_nil idle, segments_append ends, reportsFrom,
      add_lineEnds, List.map_append]
    cases seg with
    | foreign c =>
      have hc := classify_of_foreign ends
      have next := ih (before ++ (Segment.foreign c).text) whole .code
      rw [newlines_foreign hc] at next number ⊢
      rw [foldl_foreign hc, next, List.append_assoc]
      show noted ++ ((1 + newlines before, _) :: _)
        = noted ++ (((1 + UInt32.ofNat (newlines before)).toNat, Watch.unexpected c) :: _)
      rw [number]
      rfl
    | openString body =>
      obtain rfl : rest = [] := by
        cases ends
        rfl
      rw [foldl_segment ends (by simp), line, segments_nil, reportsFrom, List.map_nil, List.append_nil]
      show noted ++ [(_, _)] = noted ++ [((1 + UInt32.ofNat _).toNat, "Unterminated string")]
      rw [number]
      rfl
    | _ =>
      have next := ih _ whole (idle_modeAfter ends (by simp))
      rw [foldl_segment ends (by simp), line, next]
      rfl

/-- The reports of a source, as lines and messages, are what the automaton notes; hence a script is
found wrong just when the automaton has something to note. -/
theorem scan_watched {source : String} (small : newlines source.toList ≤ UInt32.size - 2) :
    (scan source).reports.map lineAndMessage = watch source
      ∧ ∀ (arguments : List String) (name : String) (debug : Bool)
        (read : String → Except Command.FileError (List UInt8)) (input : List UInt8),
        Command.Request.ofArguments arguments = .script name debug →
        read name = .ok (Text.encode source) →
        ((Command.runProgram arguments read input).status.code = 65 ↔ watch source ≠ []) := by
  have same : (scan source).reports.map lineAndMessage = watch source := by
    have noted := close_foldl small [] source.toList rfl .code []
    rw [scan_reports]
    exact noted.symm
  refine ⟨same, ?_⟩
  intro arguments name debug read input asked held
  have shown : Command.runProgram arguments read input = Command.listSource name debug source := by
    rw [← Command.runScript_encode, ← held, Command.runProgram, asked]
  rw [shown, Command.listSource_eq, ← same, ne_eq, List.map_eq_nil_iff]
  cases reports : (scan source).reports with
  | nil => simp [Command.Status.code]
  | cons r rest => simp [Command.Status.code]

/-- Two slashes in a string, a quote in a comment, a slash before a foreign character, and a string
that is never closed. -/
theorem scan_watched_slashes :
    newlines "\"//\" /@ // \"#\n/\"é\n".toList ≤ UInt32.size - 2
      ∧ Command.Request.ofArguments ["a.lox"] = .script "a.lox" false
      ∧ (scan "\"//\" /@ // \"#\n/\"é\n").reports.map lineAndMessage
        = [(1, "Unexpected character '@'"), (3, "Unterminated string")]
      ∧ (Command.runProgram ["a.lox"] (fun _ => .ok (Text.encode "\"//\" /@ // \"#\n/\"é\n"))
        []).status.code = 65 := by
  have small : newlines "\"//\" /@ // \"#\n/\"é\n".toList ≤ UInt32.size - 2 := by decide
  have asked : Command.Request.ofArguments ["a.lox"] = .script "a.lox" false := by decide +kernel
  have noted : watch "\"//\" /@ // \"#\n/\"é\n"
      = [(1, "Unexpected character '@'"), (3, "Unterminated string")] := by decide +kernel
  obtain ⟨reports, wrong⟩ := scan_watched small
  refine ⟨small, asked, reports.trans noted, ?_⟩
  rw [wrong ["a.lox"] "a.lox" false _ [] asked rfl, noted]
  exact nofun

end Lox.Lexical
