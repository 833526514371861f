import Lox.Proofs.Rereading

/-!
# Layout between tokens

Tokens may be written with any blanks and comments before, between and after them, as long as there
is a blank right after each token but the last.  `Layout` says which texts these are, and a scan of
any of them gives the tokens back.
-/

namespace Lox.Lexical

open Computability

/-! ### Separators -/

/-- Blanks and comments, each comment with the line end that closes it. -/
def separator : Language Char := (Pattern.blank.language + Pattern.comment.language * {['\n']})∗

/-- A separator at the end of a source, where a last comment need not be closed. -/
def trailer : Language Char := separator * (1 + Pattern.comment.language)

/-- Empty or with a blank in front.  A comment would not be one right after the slash of a token. -/
def Detached (gap : List Char) : Prop := ∀ c ∈ gap.head?, isBlank c

/-- The text is the lexemes of the tokens in order, each with a separator after it. -/
inductive Written : List Token → List Char → Prop
  | last {t gap} (hgap : gap ∈ trailer) (detached : Detached gap) :
      Written [t] (t.lexeme.toList ++ gap)
  | next {t u ts gap text} (hgap : gap ∈ separator) (filled : gap ≠ []) (detached : Detached gap)
      (later : Written (u :: ts) text) : Written (t :: u :: ts) (t.lexeme.toList ++ gap ++ text)

/-- The text is the lexemes of the tokens in order, with separators before, between and after them. -/
inductive Layout : List Token → List Char → Prop
  | empty {gap} (hgap : gap ∈ trailer) : Layout [] gap
  | tokens {ts gap text} (hgap : gap ∈ separator) (later : Written ts text) : Layout ts (gap ++ text)

theorem nil_mem_separator : [] ∈ separator := Language.mem_kstar.mpr ⟨[], rfl, nofun⟩

theorem blank_mem_separator {c : Char} (hc : isBlank c) : [c] ∈ separator := by
  refine Language.mem_kstar.mpr ⟨[[c]], rfl, ?_⟩
  exact List.forall_mem_singleton.mpr (.inl (mem_blank.mpr ⟨c, rfl, hc⟩))

theorem comment_mem_separator {body : List Char} (hbody : '\n' ∉ body) :
    '/' :: '/' :: body ++ ['\n'] ∈ separator := by
  refine Language.mem_kstar.mpr ⟨['/' :: '/' :: body ++ ['\n']], by simp, ?_⟩
  have comment := mem_comment.mpr ⟨body, rfl, hbody⟩
  exact List.forall_mem_singleton.mpr (.inr ⟨_, comment, ['\n'], rfl, rfl⟩)

theorem append_mem_separator {gap gap' : List Char} (h : gap ∈ separator)
    (h' : gap' ∈ separator) : gap ++ gap' ∈ separator := by
  obtain ⟨parts, rfl, hparts⟩ := Language.mem_kstar.mp h
  obtain ⟨parts', rfl, hparts'⟩ := Language.mem_kstar.mp h'
  refine Language.mem_kstar.mpr ⟨parts ++ parts', List.flatten_append.symm, ?_⟩
  exact List.forall_mem_append.mpr ⟨hparts, hparts'⟩

theorem mem_trailer_of_mem_separator {gap : List Char} (h : gap ∈ separator) : gap ∈ trailer :=
  ⟨gap, h, [], .inl rfl, List.append_nil gap⟩

theorem comment_mem_trailer {gap body : List Char} (h : gap ∈ separator) (hbody : '\n' ∉ body) :
    gap ++ '/' :: '/' :: body ∈ trailer :=
  ⟨gap, h, _, .inr (mem_comment.mpr ⟨body, rfl, hbody⟩), rfl⟩

theorem detached_cons {c : Char} (hc : isBlank c) (gap : List Char) : Detached (c :: gap) := by
  intro d hd
  cases hd
  exact hc

/-! ### Separators leave nothing behind -/

/-- The text falls into segments of its own, which spell no token, whatever comes after it. -/
def Skipped (gap : List Char) : Prop :=
  ∃ ss, Spells ss [] ∧ ∀ rest, segments (gap ++ rest) = ss ++ segments rest

theorem skipped_append {gap gap' : List Char} (h : Skipped gap) (h' : Skipped gap') :
    Skipped (gap ++ gap') := by
  obtain ⟨ss, spells, cut⟩ := h
  obtain ⟨ss', spells', cut'⟩ := h'
  refine ⟨ss ++ ss', spells.append spells', ?_⟩
  intro rest
  rw [List.append_assoc, cut, cut', List.append_assoc]

theorem skipped_blank {c : Char} (hc : isBlank c) : Skipped [c] :=
  ⟨[.blank c], .skip rfl rfl, fun _ => segments_append (.blank hc)⟩

theorem segments_comment {body rest : List Char} (hbody : '\n' ∉ body)
    (hrest : ∀ c ∈ rest.head?, c = '\n') :
    segments ('/' :: '/' :: body ++ rest) = .comment body :: segments rest :=
  segments_append (.comment hbody hrest)

theorem skipped_comment {body : List Char} (hbody : '\n' ∉ body) :
    Skipped ('/' :: '/' :: body ++ ['\n']) := by
  refine ⟨[.comment body, .blank '\n'], .append (.skip rfl rfl) (.skip rfl rfl), ?_⟩
  intro rest
  have newline : ∀ c ∈ ('\n' :: rest).head?, c = '\n' := by
    intro c hc
    cases hc
    rfl
  have ends : (Segment.blank '\n').EndsBefore rest := .blank rfl
  have cut := segments_comment hbody newline
  rw [List.append_assoc, List.singleton_append, cut]
  exact congrArg _ (segments_append ends)

theorem skipped_of_separator {gap : List Char} (h : gap ∈ separator) : Skipped gap := by
  obtain ⟨parts, rfl, hparts⟩ := Language.mem_kstar.mp h
  clear h
  induction parts with
  | nil => exact ⟨[], .nil, fun _ => rfl⟩
  | cons part parts ih =>
    obtain ⟨here, later⟩ := List.forall_mem_cons.mp hparts
    rw [List.flatten_cons]
    refine skipped_append ?_ (ih later)
    rcases here with blank | ⟨_, comment, _, rfl, rfl⟩
    · obtain ⟨c, rfl, hc⟩ := mem_blank.mp blank
      exact skipped_blank hc
    · obtain ⟨body, rfl, hbody⟩ := mem_comment.mp comment
      exact skipped_comment hbody

theorem spells_of_trailer {gap : List Char} (h : gap ∈ trailer) : Spells (segments gap) [] := by
  obtain ⟨before, hbefore, final, hfinal, rfl⟩ := h
  obtain ⟨ss, spells, cut⟩ := skipped_of_separator hbefore
  have last : Spells (segments final) [] := by
    rcases hfinal with rfl | comment
    · rw [segments_nil]
      exact .nil
    · obtain ⟨body, rfl, hbody⟩ := mem_comment.mp comment
      have only : segments ('/' :: '/' :: body ++ []) = .comment body :: segments [] :=
        segments_comment hbody nofun
      rw [List.append_nil, segments_nil] at only
      rw [only]
      exact .skip rfl rfl
  show Spells (segments (before ++ final)) []
  rw [cut]
  exact spells.append last

/-! ### Lexemes with separators -/

theorem not_continues_of_detached {kind : Kind} {characters gap : List Char} (h : Detached gap) :
    ¬ Continues kind characters gap := by
  have notWord : ¬ ∃ d ∈ gap.head?, isWordChar d := by
    rintro ⟨d, hd, word⟩
    have blank := h d hd
    rw [isBlank_eq_false_of_isWordChar word] at blank
    contradiction
  have notDigit : ¬ ∃ d ∈ gap.head?, d.isDigit := by
    rintro ⟨d, hd, digit⟩
    exact notWord ⟨d, hd, isWordChar_of_isDigit digit⟩
  have notMark : ∀ d, isBlank d = false → gap.head? ≠ some d := by
    intro d other head
    have blank := h d head
    rw [other] at blank
    contradiction
  unfold Continues
  split
  · exact notWord
  · exact notWord
  · rintro (digit | ⟨_, d, tail, rfl, _⟩)
    · exact notDigit digit
    · exact notMark '.' rfl rfl
  · exact notMark '=' rfl
  · exact notMark '=' rfl
  · exact notMark '=' rfl
  · exact notMark '=' rfl
  · exact notMark '/' rfl
  · exact id

theorem Wellformed.segments_detached {t : Token} {rest : List Char} (h : Wellformed t)
    (detached : Detached rest) :
    segments (t.lexeme.toList ++ rest) = segmentOf t :: segments rest :=
  segments_append (h.isLexeme.endsBefore (not_continues_of_detached detached))

theorem Detached.append {gap rest : List Char} (h : Detached gap) (filled : gap ≠ []) :
    Detached (gap ++ rest) := by
  obtain ⟨c, cs, rfl⟩ := List.exists_cons_of_ne_nil filled
  exact h

theorem spells_of_written {ts : List Token} {text : List Char} (h : Written ts text)
    (wellformed : ∀ t ∈ ts, Wellformed t) : Spells (segments text) ts := by
  induction h with
  | @last t gap hgap detached =>
    have ht := wellformed t List.mem_cons_self
    rw [ht.segments_detached detached]
    exact ht.spells.append (spells_of_trailer hgap)
  | @next t u ts gap text hgap filled detached later ih =>
    obtain ⟨ht, rest⟩ := List.forall_mem_cons.mp wellformed
    obtain ⟨ss, spells, cut⟩ := skipped_of_separator hgap
    -- the blank in front of the gap ends the token, so the gap has to have one
    rw [List.append_assoc, ht.segments_detached (detached.append filled), cut]
    exact ht.spells.append (spells.append (ih rest))

theorem spells_of_layout {ts : List Token} {text : List Char} (h : Layout ts text)
    (wellformed : ∀ t ∈ ts, Wellformed t) : Spells (segments text) ts := by
  cases h with
  | empty hgap => exact spells_of_trailer hgap
  | tokens hgap later =>
    obtain ⟨ss, spells, cut⟩ := skipped_of_separator hgap
    rw [cut]
    exact spells.append (spells_of_written later wellformed)

/-! ### Tokens joined by single spaces -/

/-- The lexemes with a space between any two, and one before the empty lexeme of the end. -/
def spaced (ts : List Token) : List Char :=
  [' '].intercalate (ts.map (fun t => t.lexeme.toList) ++ [[]])

theorem written_spaced (t : Token) (ts : List Token) : Written (t :: ts) (spaced (t :: ts)) := by
  induction ts generalizing t with
  | nil =>
    have final := mem_trailer_of_mem_separator (blank_mem_separator (c := ' ') rfl)
    exact .last final (detached_cons rfl [])
  | cons u ts ih =>
    have text : spaced (t :: u :: ts) = t.lexeme.toList ++ [' '] ++ spaced (u :: ts) :=
      List.intercalate_cons_cons
    rw [text]
    exact .next (blank_mem_separator rfl) (List.cons_ne_nil ' ' []) (detached_cons rfl []) (ih u)

theorem layout_spaced (ts : List Token) : Layout ts (spaced ts) := by
  cases ts with
  | nil => exact .empty (mem_trailer_of_mem_separator nil_mem_separator)
  | cons t ts => exact .tokens nil_mem_separator (written_spaced t ts)

theorem toList_joined {source : String} {ts : List Token} {line : UInt32}
    (h : (scan source).tokens = ts ++ [Token.endOfSource line]) :
    (" ".intercalate ((scan source).tokens.map Token.lexeme)).toList = spaced ts := by
  rw [String.toList_intercalate, h, List.map_append, List.map_append, List.map_map]
  rfl

/-! ### Layout makes no difference -/

theorem yields_of_layout {ts : List Token} {source : String} (produced : ∀ t ∈ ts, Produced t)
    (layout : Layout ts source.toList) : Yields source ts :=
  yields_iff.mpr (spells_of_layout layout fun t ht => (produced t ht).wellformed)

theorem yields_joined {source : String} {ts : List Token} {line : UInt32}
    (h : (scan source).tokens = ts ++ [Token.endOfSource line]) :
    Yields (" ".intercalate ((scan source).tokens.map Token.lexeme)) ts := by
  refine yields_of_layout (fun t ht => produced_of_mem h ht) ?_
  rw [toList_joined h]
  exact layout_spaced ts

/-- Tokens of any scans are read again from every layout of them.  In particular the lexemes of a
scan can be joined with single spaces. -/
theorem scan_layout :
    (∀ (ts : List Token) (source : String), (∀ t ∈ ts, Produced t) → Layout ts source.toList →
        Yields source ts)
      ∧ ∀ source, ∃ ts line, (scan source).tokens = ts ++ [Token.endOfSource line]
        ∧ Yields (" ".intercalate ((scan source).tokens.map Token.lexeme)) ts := by
  constructor
  · intro ts source produced layout
    exact yields_of_layout produced layout
  · intro source
    exact ⟨_, _, scan_tokens source, yields_joined (scan_tokens source)⟩

/-- A number from before a point that no digit follows and a slash from before a blank, with a
comment between them and one that is never closed. -/
theorem scan_layout_slash :
    (∀ t ∈ [tokenOf .number ['1'] 1, tokenOf .slash ['/'] 2], Produced t)
      ∧ Layout [tokenOf .number ['1'] 1, tokenOf .slash ['/'] 2] "\t1 //2\n/ //".toList
      ∧ Yields "\t1 //2\n/ //" [tokenOf .number ['1'] 1, tokenOf .slash ['/'] 2] := by
  have number : Produced (tokenOf .number ['1'] 1) := by
    have cut : segments "1.x".toList
        = [.lexeme .number ['1'], .lexeme .dot ['.'], .lexeme .identifier ['x']] := by decide +kernel
    exact produced_of_cut cut List.mem_cons_self
  have slash : Produced (tokenOf .slash ['/'] 2) := by
    have cut : segments "\n/ @".toList
        = [.blank '\n', .lexeme .slash ['/'], .blank ' ', .foreign '@'] := by decide +kernel
    exact produced_of_cut cut List.mem_cons_self
  have produced : ∀ t ∈ [tokenOf .number ['1'] 1, tokenOf .slash ['/'] 2], Produced t :=
    List.forall_mem_cons.mpr ⟨number, List.forall_mem_singleton.mpr slash⟩
  have layout : Layout [tokenOf .number ['1'] 1, tokenOf .slash ['/'] 2] "\t1 //2\n/ //".toList := by
    have two : '\n' ∉ ['2'] := by decide
    have comment := append_mem_separator (blank_mem_separator (c := ' ') rfl)
      (comment_mem_separator two)
    have final := comment_mem_trailer (blank_mem_separator (c := ' ') rfl) List.not_mem_nil
    exact .tokens (blank_mem_separator rfl) (.next comment (List.cons_ne_nil _ _)
      (detached_cons rfl _) (.last final (detached_cons rfl _)))
  exact ⟨produced, layout, scan_layout.1 _ _ produced layout⟩

end Lox.Lexical
