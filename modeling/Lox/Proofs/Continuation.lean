import Lox.Proofs.MaximalMunch

/-!
# What goes on with a lexeme

Whether a lexeme is complete depends on at most two characters after it.  `Continues` lists the few
texts that go on with a lexeme, and `IsLexeme.endsBefore_iff` says that a lexeme is cut off as it is
before every other text.  Its kind and its characters are all that matters, not where it was found.
-/

namespace Lox

/-- The kinds of words, reserved or not. -/
def Kind.isWord : Kind → Bool
  | .identifier | .keyword _ => true
  | _ => false

namespace Lexical

/-- The text after a lexeme goes on with it. -/
def Continues (kind : Kind) (characters rest : List Char) : Prop :=
  match kind with
  | .identifier | .keyword _ => ∃ d ∈ rest.head?, isWordChar d
  | .number =>
    (∃ d ∈ rest.head?, d.isDigit)
      ∨ ('.' ∉ characters ∧ ∃ d tail, rest = '.' :: d :: tail ∧ d.isDigit)
  | .bang | .equal | .greater | .less => rest.head? = some '='
  | .slash => rest.head? = some '/'
  | _ => False

/-- The characters are a lexeme of the kind in some source. -/
def IsLexeme (kind : Kind) (characters : List Char) : Prop :=
  ∃ rest, (Segment.lexeme kind characters).EndsBefore rest

/-! ### The kinds that a lexeme can have -/

section Kinds

variable {c : Char} {kind other : Kind} {characters rest : List Char}

theorem continues_ofWord (word : String) :
    Continues (Kind.ofWord word) characters rest ↔ ∃ d ∈ rest.head?, isWordChar d := by
  unfold Kind.ofWord
  cases keyword? word <;> exact Iff.rfl

theorem not_continues_of_punctuator (hc : classify c = .punctuator kind) :
    ¬ Continues kind characters rest := by
  have mark := mem_marks_of_classify hc nofun nofun nofun nofun
  simp only [marks, List.mem_cons, Prod.mk.injEq, reduceCtorEq, and_false, false_or, or_false,
    CharClass.punctuator.injEq, List.not_mem_nil] at mark
  rcases mark with h | h | h | h | h | h | h | h | h | h
  all_goals
    obtain ⟨_, rfl⟩ := h
    exact id

theorem continues_of_operator (hc : classify c = .operator kind other) :
    (Continues kind characters rest ↔ rest.head? = some '=')
      ∧ ¬ Continues other characters rest := by
  have mark := mem_marks_of_classify hc nofun nofun nofun nofun
  simp only [marks, List.mem_cons, Prod.mk.injEq, reduceCtorEq, and_false, false_or, or_false,
    CharClass.operator.injEq, List.not_mem_nil] at mark
  rcases mark with h | h | h | h
  all_goals
    obtain ⟨_, rfl, rfl⟩ := h
    exact ⟨Iff.rfl, id⟩

end Kinds

theorem point_notMem_of_digits {cs : List Char} (hcs : ∀ e ∈ cs, e.isDigit) : '.' ∉ cs := by
  intro point
  exact absurd (hcs '.' point) (by decide)

theorem point_mem_decimal (c d : Char) (cs ds : List Char) : '.' ∈ c :: cs ++ '.' :: d :: ds := by
  simp

/-! ### Complete lexemes -/

theorem not_continues {kind : Kind} {characters rest : List Char}
    (h : (Segment.lexeme kind characters).EndsBefore rest) : ¬ Continues kind characters rest := by
  cases h with
  | punctuator hc => exact not_continues_of_punctuator hc
  | alone hc hrest => exact fun goes => hrest ((continues_of_operator hc).1.mp goes)
  | withEqual hc => exact (continues_of_operator hc).2
  | slash hrest => exact hrest
  | word hc hcs hrest =>
    intro goes
    obtain ⟨d, hd, word⟩ := (continues_ofWord _).mp goes
    rw [hrest d hd] at word
    contradiction
  | whole hc hcs hrest hpoint =>
    rintro (⟨d, hd, digit⟩ | ⟨_, d, tail, rfl, digit⟩)
    · rw [hrest d hd] at digit
      contradiction
    · rw [hpoint d tail rfl] at digit
      contradiction
  | decimal hc hcs hd hds hrest =>
    rintro (⟨e, he, digit⟩ | ⟨whole, _⟩)
    · rw [hrest e he] at digit
      contradiction
    · exact whole (point_mem_decimal _ _ _ _)
  | string hbody => exact id

namespace IsLexeme

variable {kind : Kind} {characters rest : List Char}

theorem endsBefore (h : IsLexeme kind characters) (stops : ¬ Continues kind characters rest) :
    (Segment.lexeme kind characters).EndsBefore rest := by
  obtain ⟨_, found⟩ := h
  cases found with
  | punctuator hc => exact .punctuator hc
  | alone hc _ => exact .alone hc (fun head => stops ((continues_of_operator hc).1.mpr head))
  | withEqual hc => exact .withEqual hc
  | slash _ => exact .slash stops
  | word hc hcs _ =>
    refine .word hc hcs ?_
    intro d hd
    by_contra word
    exact stops ((continues_ofWord _).mpr ⟨d, hd, by simpa using word⟩)
  | whole hc hcs _ _ =>
    refine .whole hc hcs ?_ ?_
    · intro d hd
      by_contra digit
      exact stops (.inl ⟨d, hd, by simpa using digit⟩)
    · intro d tail hrest
      by_contra digit
      have whole := point_notMem_of_digits (List.forall_mem_cons.mpr ⟨hc, hcs⟩)
      exact stops (.inr ⟨whole, d, tail, hrest, by simpa using digit⟩)
  | decimal hc hcs hd hds _ =>
    refine .decimal hc hcs hd hds ?_
    intro e he
    by_contra digit
    exact stops (.inl ⟨e, he, by simpa using digit⟩)
  | string hbody => exact .string hbody

/-- A lexeme is complete before just the texts that do not go on with it. -/
theorem endsBefore_iff (h : IsLexeme kind characters) :
    (Segment.lexeme kind characters).EndsBefore rest ↔ ¬ Continues kind characters rest :=
  ⟨not_continues, h.endsBefore⟩

end IsLexeme

/-! ### The first character of a lexeme -/

/-- What the first character of a lexeme says about the kind, as far as it can go on with something. -/
structure Opens (c : Char) (kind : Kind) : Prop where
  word : isWordChar c ↔ kind.isWord ∨ kind = .number
  digit : c.isDigit ↔ kind = .number
  equal : c = '=' ↔ kind = .equal ∨ kind = .equalEqual
  slash : c = '/' ↔ kind = .slash
  point : c = '.' ↔ kind = .dot

instance (c : Char) (kind : Kind) : Decidable (Opens c kind) :=
  decidable_of_iff ((isWordChar c ↔ kind.isWord ∨ kind = .number) ∧ (c.isDigit ↔ kind = .number)
      ∧ (c = '=' ↔ kind = .equal ∨ kind = .equalEqual) ∧ (c = '/' ↔ kind = .slash)
      ∧ (c = '.' ↔ kind = .dot))
    ⟨fun ⟨word, digit, equal, slash, point⟩ => ⟨word, digit, equal, slash, point⟩,
      fun opens => ⟨opens.word, opens.digit, opens.equal, opens.slash, opens.point⟩⟩

theorem opens_of_symbol {c : Char} {cs : List Char} {kind : Kind} (h : (c :: cs, kind) ∈ symbols) :
    Opens c kind := by
  have all : ∀ s ∈ symbols, Opens (s.1.headD ' ') s.2 := by decide
  exact all _ h

theorem ne_mark_of_isWordChar {c : Char} (h : isWordChar c) : c ≠ '=' ∧ c ≠ '/' ∧ c ≠ '.' := by
  refine ⟨?_, ?_, ?_⟩ <;> rintro rfl <;> exact absurd h (by decide)

theorem opens_of_isLetter {c : Char} {kind : Kind} (hc : isLetter c) (hkind : kind.isWord) :
    Opens c kind := by
  have word := isWordChar_of_isLetter hc
  have notDigit : ¬ c.isDigit := by
    intro digit
    rw [isLetter_eq_false_of_isDigit digit] at hc
    contradiction
  obtain ⟨notEqual, notSlash, notPoint⟩ := ne_mark_of_isWordChar word
  constructor
  · exact iff_of_true word (.inl hkind)
  · exact iff_of_false notDigit (by rintro rfl; contradiction)
  · exact iff_of_false notEqual (by rintro (rfl | rfl) <;> contradiction)
  · exact iff_of_false notSlash (by rintro rfl; contradiction)
  · exact iff_of_false notPoint (by rintro rfl; contradiction)

theorem opens_of_isDigit {c : Char} (hc : c.isDigit) : Opens c .number := by
  have word := isWordChar_of_isDigit hc
  obtain ⟨notEqual, notSlash, notPoint⟩ := ne_mark_of_isWordChar word
  constructor
  · exact iff_of_true word (.inr rfl)
  · exact iff_of_true hc rfl
  · exact iff_of_false notEqual (by rintro (h | h) <;> contradiction)
  · exact iff_of_false notSlash nofun
  · exact iff_of_false notPoint nofun

theorem opens_quote : Opens '"' .string := by decide

theorem isWord_ofWord (word : String) : (Kind.ofWord word).isWord := by
  unfold Kind.ofWord
  cases keyword? word <;> rfl

namespace IsLexeme

theorem opens {c : Char} {cs : List Char} {kind : Kind} (h : IsLexeme kind (c :: cs)) :
    Opens c kind := by
  obtain ⟨_, found⟩ := h
  rcases lexeme_cases found with listed | ⟨fits, rfl⟩ | ⟨fits, rfl⟩ | ⟨fits, rfl⟩
  · exact opens_of_symbol listed
  · obtain ⟨_, _, ⟨⟩, hc, _⟩ := mem_word.mp fits
    exact opens_of_isLetter hc (isWord_ofWord _)
  · obtain ⟨_, _, _, ⟨⟩, hc, _⟩ := mem_number.mp fits
    exact opens_of_isDigit hc
  · obtain ⟨_, ⟨⟩, _⟩ := mem_string.mp fits
    exact opens_quote

theorem listed {kind : Kind} {characters : List Char} (h : IsLexeme kind characters)
    (symbol : Pattern.ofKind kind = .symbol kind) : (characters, kind) ∈ symbols := by
  obtain ⟨_, found⟩ := h
  have fits := mem_ofKind found
  rw [symbol] at fits
  exact mem_symbol.mp fits

theorem eq_point {characters : List Char} (h : IsLexeme .dot characters) : characters = ['.'] := by
  have all : ∀ s ∈ symbols, s.2 = .dot → s.1 = ['.'] := by decide
  exact all _ (h.listed rfl) rfl

theorem ne_endOfSource {kind : Kind} {characters : List Char} (h : IsLexeme kind characters) :
    kind ≠ .endOfSource := by
  have none : ∀ s ∈ symbols, s.2 ≠ .endOfSource := by decide
  rintro rfl
  exact none _ (h.listed rfl) rfl

theorem ne_nil {kind : Kind} {characters : List Char} (h : IsLexeme kind characters) :
    characters ≠ [] := by
  obtain ⟨_, found⟩ := h
  exact found.text_ne_nil

end IsLexeme

/-! ### Texts that begin alike -/

theorem ne_foreign_of_isWordChar {c : Char} (h : isWordChar c) : classify c ≠ .foreign := by
  rw [isWordChar, Bool.or_eq_true] at h
  rcases h with letter | digit
  · simp [classify_of_isLetter letter]
  · simp [classify_of_isDigit digit]

/-- The text begins like the other one, as far as that can matter to a lexeme before it. -/
structure BeginsLike (text other : List Char) : Prop where
  head : ∀ c, text.head? = some c → isBlank c = false → classify c ≠ .foreign →
    other.head? = some c
  point : ∀ d tail, text = '.' :: d :: tail → d.isDigit → ∃ tail', other = '.' :: d :: tail'

theorem BeginsLike.continues {text other characters : List Char} {kind : Kind}
    (like : BeginsLike text other) (h : Continues kind characters text) :
    Continues kind characters other := by
  have goes {p : Char → Bool} (hp : ∀ c, p c → isWordChar c) (h : ∃ d ∈ text.head?, p d) :
      ∃ d ∈ other.head?, p d := by
    obtain ⟨d, head, hd⟩ := h
    have word := hp d hd
    have solid := isBlank_eq_false_of_isWordChar word
    exact ⟨d, like.head d head solid (ne_foreign_of_isWordChar word), hd⟩
  have mark {c : Char} (head : text.head? = some c) (solid : isBlank c = false)
      (known : classify c ≠ .foreign) : other.head? = some c := like.head c head solid known
  unfold Continues at h ⊢
  split at h
  · exact goes (fun _ word => word) h
  · exact goes (fun _ word => word) h
  · rcases h with digit | ⟨whole, d, tail, point, digit⟩
    · exact .inl (goes (fun _ => isWordChar_of_isDigit) digit)
    · obtain ⟨tail', same⟩ := like.point d tail point digit
      exact .inr ⟨whole, d, tail', same, digit⟩
  · exact mark h rfl (by decide)
  · exact mark h rfl (by decide)
  · exact mark h rfl (by decide)
  · exact mark h rfl (by decide)
  · exact mark h rfl (by decide)
  · exact h

/-- A lexeme that is complete before a text is complete before what begins like that text. -/
theorem BeginsLike.endsBefore {text other characters : List Char} {kind : Kind}
    (like : BeginsLike text other) (h : (Segment.lexeme kind characters).EndsBefore other) :
    (Segment.lexeme kind characters).EndsBefore text :=
  IsLexeme.endsBefore ⟨other, h⟩ fun goes => not_continues h (like.continues goes)

end Lexical

end Lox
