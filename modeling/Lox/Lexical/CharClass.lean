import Lox.Token.Basic

/-!
# Classes of characters

The lexical alphabet is ASCII.  `classify` says what part a character can play at the start of a
segment of the source, as the cases of `scan_token` tell them apart; a character outside the alphabet is
foreign, whatever it is.
-/

namespace Lox.Lexical

inductive CharClass where
  | blank
  | digit
  | letter
  | quote
  | slash
  /-- The character is a token, and with an equals sign after it another one. -/
  | operator (alone withEqual : Kind)
  | punctuator (kind : Kind)
  | foreign
  deriving DecidableEq, Repr

def isBlank (c : Char) : Bool := c == ' ' || c == '\t' || c == '\r' || c == '\n'

def isLetter (c : Char) : Bool := c.isAlpha || c == '_'

def isWordChar (c : Char) : Bool := isLetter c || c.isDigit

/-- The part that a character plays at the start of a segment. -/
def classify (c : Char) : CharClass :=
  if isBlank c then .blank
  else if c.isDigit then .digit
  else if isLetter c then .letter
  else
    match c with
    | '"' => .quote
    | '/' => .slash
    | '!' => .operator .bang .bangEqual
    | '=' => .operator .equal .equalEqual
    | '<' => .operator .less .lessEqual
    | '>' => .operator .greater .greaterEqual
    | '(' => .punctuator .leftParen
    | ')' => .punctuator .rightParen
    | '\x7b' => .punctuator .leftBrace
    | '\x7d' => .punctuator .rightBrace
    | ',' => .punctuator .comma
    | '.' => .punctuator .dot
    | '-' => .punctuator .minus
    | '+' => .punctuator .plus
    | ';' => .punctuator .semicolon
    | '*' => .punctuator .star
    | _ => .foreign

/-! ### The classes from outside -/

theorem isBlank_iff {c : Char} : isBlank c ↔ c = ' ' ∨ c = '\t' ∨ c = '\r' ∨ c = '\n' := by
  simp [isBlank, or_assoc]

theorem isDigit_iff {c : Char} : c.isDigit ↔ '0' ≤ c ∧ c ≤ '9' := by
  simp only [Char.isDigit, ge_iff_le, Bool.and_eq_true, decide_eq_true_eq, Char.le_def]

theorem isLetter_iff {c : Char} :
    isLetter c ↔ ('a' ≤ c ∧ c ≤ 'z') ∨ ('A' ≤ c ∧ c ≤ 'Z') ∨ c = '_' := by
  have unfolded : isLetter c = (decide ('A'.val ≤ c.val ∧ c.val ≤ 'Z'.val)
      || ('a'.val ≤ c.val && c.val ≤ 'z'.val) || c == '_') := rfl
  simp only [unfolded, Bool.or_eq_true, decide_eq_true_eq, beq_iff_eq, Char.le_def,
    Bool.and_eq_true]
  grind

theorem isLetter_eq_false_of_isDigit {c : Char} (h : c.isDigit) : isLetter c = false := by
  rw [isDigit_iff] at h
  rw [← Bool.not_eq_true, isLetter_iff]
  rintro (⟨low, high⟩ | ⟨low, high⟩ | rfl)
  · exact absurd (Char.le_trans low h.2) (by decide)
  · exact absurd (Char.le_trans low h.2) (by decide)
  · exact absurd h.2 (by decide)

theorem isBlank_eq_false_of_isWordChar {c : Char} (h : isWordChar c) : isBlank c = false := by
  rw [← Bool.not_eq_true, isBlank_iff]
  rintro (rfl | rfl | rfl | rfl) <;> exact absurd h (by decide)

theorem isWordChar_of_isDigit {c : Char} (h : c.isDigit) : isWordChar c := by
  simp [isWordChar, h]

theorem isWordChar_of_isLetter {c : Char} (h : isLetter c) : isWordChar c := by
  simp [isWordChar, h]

theorem classify_of_isBlank {c : Char} (h : isBlank c) : classify c = .blank := by
  unfold classify
  rw [if_pos h]

theorem classify_of_isDigit {c : Char} (h : c.isDigit) : classify c = .digit := by
  have notBlank := isBlank_eq_false_of_isWordChar (isWordChar_of_isDigit h)
  unfold classify
  rw [if_neg (by simp [notBlank]), if_pos h]

theorem classify_of_isLetter {c : Char} (h : isLetter c) : classify c = .letter := by
  have notBlank := isBlank_eq_false_of_isWordChar (isWordChar_of_isLetter h)
  have notDigit : ¬ c.isDigit := by
    intro digit
    rw [isLetter_eq_false_of_isDigit digit] at h
    contradiction
  unfold classify
  rw [if_neg (by simp [notBlank]), if_neg notDigit, if_pos h]

def marks : List (Char × CharClass) :=
  [('"', .quote), ('/', .slash),
    ('!', .operator .bang .bangEqual), ('=', .operator .equal .equalEqual),
    ('<', .operator .less .lessEqual), ('>', .operator .greater .greaterEqual),
    ('(', .punctuator .leftParen), (')', .punctuator .rightParen),
    ('\x7b', .punctuator .leftBrace), ('\x7d', .punctuator .rightBrace),
    (',', .punctuator .comma), ('.', .punctuator .dot), ('-', .punctuator .minus),
    ('+', .punctuator .plus), (';', .punctuator .semicolon), ('*', .punctuator .star)]

theorem classify_cases (c : Char) :
    (isBlank c ∧ classify c = .blank) ∨ (c.isDigit ∧ classify c = .digit)
      ∨ (isLetter c ∧ classify c = .letter) ∨ (c, classify c) ∈ marks ∨ classify c = .foreign := by
  unfold classify
  split
  · next blank => exact .inl ⟨blank, rfl⟩
  split
  · next digit => exact .inr (.inl ⟨digit, rfl⟩)
  split
  · next letter => exact .inr (.inr (.inl ⟨letter, rfl⟩))
  split
  all_goals first
    | exact .inr (.inr (.inr (.inl (by decide))))
    | exact .inr (.inr (.inr (.inr rfl)))

theorem isBlank_of_classify {c : Char} (h : classify c = .blank) : isBlank c := by
  rcases classify_cases c with ⟨blank, _⟩ | ⟨_, other⟩ | ⟨_, other⟩ | mark | other
  · exact blank
  all_goals simp_all [marks]

theorem isDigit_of_classify {c : Char} (h : classify c = .digit) : c.isDigit := by
  rcases classify_cases c with ⟨_, other⟩ | ⟨digit, _⟩ | ⟨_, other⟩ | mark | other
  case inr.inl => exact digit
  all_goals simp_all [marks]

theorem isLetter_of_classify {c : Char} (h : classify c = .letter) : isLetter c := by
  rcases classify_cases c with ⟨_, other⟩ | ⟨_, other⟩ | ⟨letter, _⟩ | mark | other
  case inr.inr.inl => exact letter
  all_goals simp_all [marks]

/-- The classes other than those of blanks, digits, letters and foreign characters have just the
characters that `marks` lists for them. -/
theorem mem_marks_of_classify {c : Char} {k : CharClass} (h : classify c = k) (blank : k ≠ .blank)
    (digit : k ≠ .digit) (letter : k ≠ .letter) (foreign : k ≠ .foreign) : (c, k) ∈ marks := by
  subst h
  rcases classify_cases c with ⟨_, other⟩ | ⟨_, other⟩ | ⟨_, other⟩ | mark | other
  case inr.inr.inr.inl => exact mark
  all_goals exact absurd other (by assumption)

end Lox.Lexical
