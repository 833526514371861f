import Lox.Lexical.Grammar

/-!
# Membership in the patterns

Each pattern is brought into the form "a first character, then ...".  `mem_language_iff` puts the
forms together: the class of its first character and the characters after it decide whether a text
belongs to a pattern, and to which one.
-/

namespace Lox.Lexical

open Computability

/-! ### Texts of the patterns -/

theorem mem_kstar_oneOf {p : Char → Prop} {text : List Char} :
    text ∈ (oneOf p)∗ ↔ ∀ c ∈ text, p c := by
  rw [Language.mem_kstar]
  constructor
  · intro h c hc
    obtain ⟨parts, rfl, hparts⟩ := h
    obtain ⟨part, hpart, hin⟩ := List.mem_flatten.mp hc
    obtain ⟨d, hd, rfl⟩ := hparts part hpart
    rw [List.mem_singleton.mp hin]
    exact hd
  · intro h
    refine ⟨text.map fun c => [c], ?_, ?_⟩
    · exact (List.flatMap_singleton' text).symm
    · intro part hpart
      obtain ⟨c, hc, rfl⟩ := List.mem_map.mp hpart
      exact ⟨c, h c hc, rfl⟩

theorem mem_oneOf_mul_kstar {p q : Char → Prop} {text : List Char} :
    text ∈ oneOf p * (oneOf q)∗ ↔ ∃ c cs, text = c :: cs ∧ p c ∧ ∀ d ∈ cs, q d := by
  rw [Language.mem_mul]
  constructor
  · intro h
    obtain ⟨_, ⟨c, hc, rfl⟩, cs, hcs, rfl⟩ := h
    exact ⟨c, cs, rfl, hc, mem_kstar_oneOf.mp hcs⟩
  · intro h
    obtain ⟨c, cs, rfl, hc, hcs⟩ := h
    exact ⟨[c], ⟨c, hc, rfl⟩, cs, mem_kstar_oneOf.mpr hcs, rfl⟩

theorem digit_iff {c : Char} : Digit c ↔ c.isDigit := isDigit_iff.symm

theorem letter_iff {c : Char} : Letter c ↔ isLetter c := isLetter_iff.symm

theorem letter_or_digit_iff {c : Char} : Letter c ∨ Digit c ↔ isWordChar c := by
  rw [letter_iff, digit_iff, isWordChar, Bool.or_eq_true]


theorem mem_number {text : List Char} :
    text ∈ Pattern.number.language ↔ ∃ c cs tail, text = c :: (cs ++ tail) ∧ c.isDigit
      ∧ (∀ e ∈ cs, e.isDigit)
      ∧ (tail = [] ∨ ∃ d ds, tail = '.' :: d :: ds ∧ d.isDigit ∧ ∀ e ∈ ds, e.isDigit) := by
  simp only [← digit_iff]
  constructor
  · intro h
    obtain ⟨_, hwhole, tail, htail, rfl⟩ := h
    obtain ⟨c, cs, rfl, hc, hcs⟩ := mem_oneOf_mul_kstar.mp hwhole
    refine ⟨c, cs, tail, rfl, hc, hcs, ?_⟩
    rcases htail with rfl | htail
    · exact .inl rfl
    · obtain ⟨_, rfl, _, hfraction, rfl⟩ := htail
      obtain ⟨d, ds, rfl, hd, hds⟩ := mem_oneOf_mul_kstar.mp hfraction
      exact .inr ⟨d, ds, rfl, hd, hds⟩
  · intro h
    obtain ⟨c, cs, tail, rfl, hc, hcs, htail⟩ := h
    refine ⟨c :: cs, mem_oneOf_mul_kstar.mpr ⟨c, cs, rfl, hc, hcs⟩, tail, ?_, rfl⟩
    rcases htail with rfl | ⟨d, ds, rfl, hd, hds⟩
    · exact .inl rfl
    · exact .inr ⟨['.'], rfl, d :: ds, mem_oneOf_mul_kstar.mpr ⟨d, ds, rfl, hd, hds⟩, rfl⟩

theorem mem_word {text : List Char} :
    text ∈ Pattern.word.language
      ↔ ∃ c cs, text = c :: cs ∧ isLetter c ∧ ∀ d ∈ cs, isWordChar d := by
  simp only [← letter_iff, ← letter_or_digit_iff]
  exact mem_oneOf_mul_kstar

theorem mem_comment {text : List Char} :
    text ∈ Pattern.comment.language ↔ ∃ body, text = '/' :: '/' :: body ∧ '\n' ∉ body := by
  constructor
  · intro h
    obtain ⟨_, rfl, body, hbody, rfl⟩ := h
    exact ⟨body, rfl, fun hc => mem_kstar_oneOf.mp hbody _ hc rfl⟩
  · intro h
    obtain ⟨body, rfl, hbody⟩ := h
    refine ⟨['/', '/'], rfl, body, mem_kstar_oneOf.mpr ?_, rfl⟩
    intro c hc same
    exact hbody (same ▸ hc)

theorem mem_string {text : List Char} :
    text ∈ Pattern.string.language ↔ ∃ body, text = '"' :: body ++ ['"'] ∧ '"' ∉ body := by
  constructor
  · intro h
    obtain ⟨_, ⟨_, rfl, body, hbody, rfl⟩, _, rfl, rfl⟩ := h
    exact ⟨body, rfl, fun hc => mem_kstar_oneOf.mp hbody _ hc rfl⟩
  · intro h
    obtain ⟨body, rfl, hbody⟩ := h
    refine ⟨'"' :: body, ⟨['"'], rfl, body, mem_kstar_oneOf.mpr ?_, rfl⟩, ['"'], rfl, rfl⟩
    intro c hc same
    exact hbody (same ▸ hc)

theorem mem_blank {text : List Char} :
    text ∈ Pattern.blank.language ↔ ∃ c, text = [c] ∧ isBlank c := by
  constructor
  · intro h
    obtain ⟨c, hc, rfl⟩ := h
    exact ⟨c, rfl, isBlank_iff.mpr hc⟩
  · intro h
    obtain ⟨c, rfl, hc⟩ := h
    exact ⟨c, isBlank_iff.mp hc, rfl⟩

theorem mem_symbol {kind : Kind} {text : List Char} :
    text ∈ (Pattern.symbol kind).language ↔ (text, kind) ∈ symbols := Iff.rfl

/-! ### What may follow the first character -/

/-- A text of the pattern whose first character is of the class goes on with these characters. -/
inductive GoesOn : CharClass → List Char → Pattern → Prop
  | blank : GoesOn .blank [] .blank
  | whole {cs} (hcs : ∀ e ∈ cs, e.isDigit) : GoesOn .digit cs .number
  | decimal {cs d ds} (hcs : ∀ e ∈ cs, e.isDigit) (hd : d.isDigit) (hds : ∀ e ∈ ds, e.isDigit) :
      GoesOn .digit (cs ++ '.' :: d :: ds) .number
  | word {cs} (hcs : ∀ d ∈ cs, isWordChar d) : GoesOn .letter cs .word
  | string {body} (hbody : '"' ∉ body) : GoesOn .quote (body ++ ['"']) .string
  | slash : GoesOn .slash [] (.symbol .slash)
  | comment {body} (hbody : '\n' ∉ body) : GoesOn .slash ('/' :: body) .comment
  | alone {kind other} : GoesOn (.operator kind other) [] (.symbol kind)
  | withEqual {kind other} : GoesOn (.operator other kind) ['='] (.symbol kind)
  | punctuator {kind} : GoesOn (.punctuator kind) [] (.symbol kind)

theorem goesOn_of_symbol {c : Char} {cs : List Char} {kind : Kind}
    (h : (c :: cs, kind) ∈ symbols) : GoesOn (classify c) cs (.symbol kind) := by
  simp only [symbols, List.mem_cons, Prod.mk.injEq, List.cons.injEq, List.not_mem_nil,
    or_false] at h
  rcases h with h | h | h | h | h | h | h | h | h | h | h | h | h | h | h | h | h | h | h
  all_goals
    obtain ⟨⟨rfl, rfl⟩, rfl⟩ := h
    constructor

theorem goesOn_of_mem {c : Char} {cs : List Char} {p : Pattern} (h : c :: cs ∈ p.language) :
    GoesOn (classify c) cs p := by
  cases p with
  | blank =>
    obtain ⟨_, ⟨⟩, hc⟩ := mem_blank.mp h
    rw [classify_of_isBlank hc]
    exact .blank
  | comment =>
    obtain ⟨body, ⟨⟩, hbody⟩ := mem_comment.mp h
    exact .comment hbody
  | symbol kind => exact goesOn_of_symbol (mem_symbol.mp h)
  | word =>
    obtain ⟨_, _, ⟨⟩, hc, hcs⟩ := mem_word.mp h
    rw [classify_of_isLetter hc]
    exact .word hcs
  | number =>
    obtain ⟨_, cs, tail, ⟨⟩, hc, hcs, htail⟩ := mem_number.mp h
    rw [classify_of_isDigit hc]
    rcases htail with rfl | ⟨d, ds, rfl, hd, hds⟩
    · rw [List.append_nil]
      exact .whole hcs
    · exact .decimal hcs hd hds
  | string =>
    obtain ⟨body, ⟨⟩, hbody⟩ := mem_string.mp h
    exact .string hbody

theorem mem_symbols_of_punctuator {c : Char} {kind : Kind} (h : classify c = .punctuator kind) :
    ([c], kind) ∈ symbols := by
  have mark := mem_marks_of_classify h nofun nofun nofun nofun
  simp only [marks, List.mem_cons, Prod.mk.injEq, reduceCtorEq, and_false, false_or, or_false,
    CharClass.punctuator.injEq, List.not_mem_nil] at mark
  rcases mark with h | h | h | h | h | h | h | h | h | h
  all_goals
    obtain ⟨rfl, rfl⟩ := h
    decide

theorem mem_symbols_of_operator {c : Char} {kind withEqual : Kind}
    (h : classify c = .operator kind withEqual) :
    ([c], kind) ∈ symbols ∧ ([c, '='], withEqual) ∈ symbols := by
  have mark := mem_marks_of_classify h nofun nofun nofun nofun
  simp only [marks, List.mem_cons, Prod.mk.injEq, reduceCtorEq, and_false, false_or, or_false,
    CharClass.operator.injEq, List.not_mem_nil] at mark
  rcases mark with h | h | h | h
  all_goals
    obtain ⟨rfl, rfl, rfl⟩ := h
    decide

theorem mem_of_goesOn {c : Char} {cs : List Char} {p : Pattern} (h : GoesOn (classify c) cs p) :
    c :: cs ∈ p.language := by
  generalize hk : classify c = k at h
  cases h with
  | blank => exact mem_blank.mpr ⟨c, rfl, isBlank_of_classify hk⟩
  | whole hcs =>
    exact mem_number.mpr ⟨c, cs, [], by simp, isDigit_of_classify hk, hcs, .inl rfl⟩
  | decimal hcs hd hds =>
    exact mem_number.mpr ⟨c, _, _, rfl, isDigit_of_classify hk, hcs, .inr ⟨_, _, rfl, hd, hds⟩⟩
  | word hcs => exact mem_word.mpr ⟨c, cs, rfl, isLetter_of_classify hk, hcs⟩
  | string hbody =>
    obtain rfl := eq_quote_of_classify hk
    exact mem_string.mpr ⟨_, rfl, hbody⟩
  | slash =>
    obtain rfl := eq_slash_of_classify hk
    exact mem_symbol.mpr (by decide)
  | comment hbody =>
    obtain rfl := eq_slash_of_classify hk
    exact mem_comment.mpr ⟨_, rfl, hbody⟩
  | alone => exact mem_symbol.mpr (mem_symbols_of_operator hk).1
  | withEqual => exact mem_symbol.mpr (mem_symbols_of_operator hk).2
  | punctuator => exact mem_symbol.mpr (mem_symbols_of_punctuator hk)

/-- Whether a text belongs to a pattern is decided by the class of its first character and by what
follows that character. -/
theorem mem_language_iff {c : Char} {cs : List Char} {p : Pattern} :
    c :: cs ∈ p.language ↔ GoesOn (classify c) cs p := ⟨goesOn_of_mem, mem_of_goesOn⟩

theorem nil_notMem_language (p : Pattern) : [] ∉ p.language := by
  intro h
  cases p with
  | blank => obtain ⟨_, ⟨⟩, _⟩ := mem_blank.mp h
  | comment => obtain ⟨_, ⟨⟩, _⟩ := mem_comment.mp h
  | symbol kind => exact absurd (mem_symbol.mp h) (by simp [symbols])
  | word => obtain ⟨_, _, ⟨⟩, _⟩ := mem_word.mp h
  | number => obtain ⟨_, _, _, ⟨⟩, _⟩ := mem_number.mp h
  | string => obtain ⟨_, ⟨⟩, _⟩ := mem_string.mp h

theorem matches_cons_iff {c : Char} {cs : List Char} :
    Matches (c :: cs) ↔ ∃ p, GoesOn (classify c) cs p := by
  simp only [Matches, mem_language_iff]

def patternOf : CharClass → List Char → Pattern
  | .blank, _ => .blank
  | .digit, _ => .number
  | .letter, _ => .word
  | .quote, _ => .string
  | .slash, [] => .symbol .slash
  | .slash, _ :: _ => .comment
  | .operator kind _, [] => .symbol kind
  | .operator _ withEqual, _ :: _ => .symbol withEqual
  | .punctuator kind, _ => .symbol kind
  | .foreign, _ => .blank

theorem GoesOn.eq_patternOf {k : CharClass} {cs : List Char} {p : Pattern} (h : GoesOn k cs p) :
    p = patternOf k cs := by
  cases h <;> rfl

theorem pattern_unique {text : List Char} {p q : Pattern} (hp : text ∈ p.language)
    (hq : text ∈ q.language) : p = q := by
  cases text with
  | nil => exact absurd hp (nil_notMem_language p)
  | cons c cs =>
    have left := (mem_language_iff.mp hp).eq_patternOf
    have right := (mem_language_iff.mp hq).eq_patternOf
    rw [left, right]

end Lox.Lexical
