import Lox.Proofs.GrammarMembership
import Lox.Proofs.Reading

/-!
# Scanning is maximal munch

A complete segment is the longest match that the grammar has at its place, and where a segment is
foreign or an open string the grammar has none (`munch_cases`).  Hence the segments are the pieces of
the source by the rule of the longest match, that rule leaves no choice (`munch_iff`), and the tokens
and reports are those of the pieces.
-/

namespace Lox.Lexical

/-! ### No other match is longer -/

theorem length_le_run {p : Char → Bool} {other run rest : List Char} (hother : ∀ c ∈ other, p c)
    (hrest : ∀ c ∈ rest.head?, p c = false) (starts : other <+: run ++ rest) :
    other.length ≤ run.length := by
  induction run generalizing other with
  | nil =>
    cases other with
    | nil => exact Nat.le_refl 0
    | cons c cs =>
      obtain ⟨more, rfl⟩ := starts
      have stops : p c = false := hrest c rfl
      rw [hother c List.mem_cons_self] at stops
      contradiction
  | cons r run ih =>
    cases other with
    | nil => exact Nat.zero_le _
    | cons c cs =>
      have shorter := ih (fun d hd => hother d (List.mem_cons_of_mem c hd))
        (List.cons_prefix_cons.mp starts).2
      exact Nat.succ_le_succ shorter

theorem run_unique {p : Char → Bool} {run run' rest rest' : List Char} (hrun : ∀ c ∈ run, p c)
    (hrest : ∀ c ∈ rest.head?, p c = false) (hrun' : ∀ c ∈ run', p c)
    (hrest' : ∀ c ∈ rest'.head?, p c = false) (same : run ++ rest = run' ++ rest') :
    run = run' ∧ rest = rest' := by
  have runs := congrArg (List.takeWhile p) same
  have rests := congrArg (List.dropWhile p) same
  rw [takeWhile_run hrun hrest, takeWhile_run hrun' hrest'] at runs
  rw [dropWhile_run hrun hrest, dropWhile_run hrun' hrest'] at rests
  exact ⟨runs, rests⟩

theorem not_isDigit_point {tail : List Char} : ∀ c ∈ ('.' :: tail).head?, c.isDigit = false := by
  intro c hc
  cases hc
  rfl

-- A number with a point starts like this text of digits and its rest: the points stand together.
theorem point_unique {cs cs' rest tail more : List Char} (hcs : ∀ e ∈ cs, e.isDigit)
    (hrest : ∀ e ∈ rest.head?, e.isDigit = false) (hcs' : ∀ e ∈ cs', e.isDigit)
    (same : (cs' ++ '.' :: tail) ++ more = cs ++ rest) : cs' = cs ∧ rest = '.' :: (tail ++ more) := by
  rw [List.append_assoc] at same
  have parts := run_unique hcs' not_isDigit_point hcs hrest same
  exact ⟨parts.1, parts.2.symm⟩

theorem quote_unique {body body' rest more : List Char} (hbody : '"' ∉ body) (hbody' : '"' ∉ body')
    (same : (body' ++ ['"']) ++ more = body ++ '"' :: rest) : body' = body := by
  have stops : ∀ tail : List Char, ∀ c ∈ ('"' :: tail).head?, (c != '"') = false := by
    intro tail c hc
    cases hc
    rfl
  rw [List.append_assoc] at same
  exact (run_unique (bne_of_notMem hbody') (stops more) (bne_of_notMem hbody) (stops rest) same).1

theorem length_le_whole {cs rest other : List Char} {q : Pattern} (hcs : ∀ e ∈ cs, e.isDigit)
    (hrest : ∀ e ∈ rest.head?, e.isDigit = false)
    (hpoint : ∀ d tail, rest = '.' :: d :: tail → d.isDigit = false)
    (hq : GoesOn .digit other q) (starts : other <+: cs ++ rest) : other.length ≤ cs.length := by
  cases hq with
  | whole hother => exact length_le_run hother hrest starts
  | decimal hother hd hds =>
    obtain ⟨more, same⟩ := starts
    have point := (point_unique hcs hrest hother same).2
    rw [hpoint _ _ point] at hd
    contradiction

theorem length_le_decimal {cs ds rest other : List Char} {d : Char} {q : Pattern}
    (hcs : ∀ e ∈ cs, e.isDigit) (hrest : ∀ e ∈ rest.head?, e.isDigit = false)
    (hq : GoesOn .digit other q)
    (starts : other <+: (cs ++ '.' :: d :: ds) ++ rest) :
    other.length ≤ (cs ++ '.' :: d :: ds).length := by
  rw [List.append_assoc] at starts
  cases hq with
  | whole hother =>
    have shorter := length_le_run hother not_isDigit_point starts
    rw [List.length_append]
    omega
  | decimal hother hd hds' =>
    obtain ⟨more, same⟩ := starts
    obtain ⟨rfl, point⟩ := point_unique hcs not_isDigit_point hother same
    have fraction := (List.cons.inj (List.cons.inj point).2).2
    have shorter := length_le_run hds' hrest ⟨more, fraction.symm⟩
    simp only [List.length_append, List.length_cons]
    omega

theorem length_le_string {body rest other : List Char} {q : Pattern} (hbody : '"' ∉ body)
    (hq : GoesOn .quote other q) (starts : other <+: (body ++ ['"']) ++ rest) :
    other.length ≤ (body ++ ['"']).length := by
  cases hq with
  | string hother =>
    obtain ⟨more, same⟩ := starts
    rw [List.append_assoc body] at same
    obtain rfl := quote_unique hbody hother same
    exact Nat.le_refl _

theorem length_le_comment {body rest other : List Char} {q : Pattern}
    (hrest : ∀ c ∈ rest.head?, c = '\n') (hq : GoesOn .slash other q)
    (starts : other <+: ('/' :: body) ++ rest) : other.length ≤ ('/' :: body).length := by
  cases hq with
  | slash => exact Nat.zero_le _
  | comment hother =>
    have stops : ∀ c ∈ rest.head?, (c != '\n') = false := by
      intro c hc
      rw [hrest c hc]
      rfl
    have shorter := length_le_run (bne_of_notMem hother) stops (List.cons_prefix_cons.mp starts).2
    exact Nat.succ_le_succ shorter

namespace Segment.EndsBefore

/-- What follows the first character of a complete segment cannot be outdone. -/
theorem length_le {seg : Segment} {rest cs other : List Char} {c : Char} {q : Pattern}
    (h : seg.EndsBefore rest) (hcs : seg.text = c :: cs) (hq : GoesOn (classify c) other q)
    (starts : other <+: cs ++ rest) : other.length ≤ cs.length := by
  cases h with
  | blank hc =>
    obtain ⟨rfl, rfl⟩ := List.cons.inj hcs
    rw [classify_of_isBlank hc] at hq
    cases hq
    exact Nat.le_refl 0
  | comment hbody hrest =>
    obtain ⟨rfl, rfl⟩ := List.cons.inj hcs
    exact length_le_comment hrest hq starts
  | punctuator hc =>
    obtain ⟨rfl, rfl⟩ := List.cons.inj hcs
    rw [hc] at hq
    cases hq
    exact Nat.le_refl 0
  | alone hc hrest =>
    obtain ⟨rfl, rfl⟩ := List.cons.inj hcs
    rw [hc] at hq
    cases hq with
    | alone => exact Nat.le_refl 0
    | withEqual =>
      obtain ⟨more, rfl⟩ := starts
      exact absurd rfl hrest
  | withEqual hc =>
    obtain ⟨rfl, rfl⟩ := List.cons.inj hcs
    rw [hc] at hq
    cases hq <;> simp
  | slash hrest =>
    obtain ⟨rfl, rfl⟩ := List.cons.inj hcs
    cases (hq : GoesOn .slash other q) with
    | slash => exact Nat.le_refl 0
    | comment hbody =>
      obtain ⟨more, rfl⟩ := starts
      exact absurd rfl hrest
  | word hc hword hrest =>
    obtain ⟨rfl, rfl⟩ := List.cons.inj hcs
    rw [classify_of_isLetter hc] at hq
    cases hq with
    | word hother => exact length_le_run hother hrest starts
  | whole hc hdigits hrest hpoint =>
    obtain ⟨rfl, rfl⟩ := List.cons.inj hcs
    rw [classify_of_isDigit hc] at hq
    exact length_le_whole hdigits hrest hpoint hq starts
  | decimal hc hdigits hd hds hrest =>
    obtain ⟨rfl, rfl⟩ := List.cons.inj hcs
    rw [classify_of_isDigit hc] at hq
    exact length_le_decimal hdigits hrest hq starts
  | string hbody =>
    obtain ⟨rfl, rfl⟩ := List.cons.inj hcs
    exact length_le_string hbody hq starts
  | foreign hc =>
    obtain ⟨rfl, rfl⟩ := List.cons.inj hcs
    rw [hc] at hq
    cases hq
  | openString hbody =>
    rw [List.append_nil] at starts
    exact starts.length_le

end Segment.EndsBefore

/-! ### The pieces of a source -/

def Pattern.ofKind : Kind → Pattern
  | .identifier => .word
  | .keyword _ => .word
  | .number => .number
  | .string => .string
  | kind => .symbol kind

def Segment.piece : Segment → Piece
  | blank c => .matched .blank [c]
  | comment body => .matched .comment ('/' :: '/' :: body)
  | lexeme kind characters => .matched (Pattern.ofKind kind) characters
  | foreign c => .foreign c
  | openString body => .openString ('"' :: body)

theorem ofKind_ofWord (word : String) : Pattern.ofKind (Kind.ofWord word) = .word := by
  unfold Kind.ofWord
  cases keyword? word <;> rfl

theorem ofKind_of_symbol {text : List Char} {kind : Kind} (h : (text, kind) ∈ symbols) :
    Pattern.ofKind kind = .symbol kind := by
  have all : ∀ s ∈ symbols, Pattern.ofKind s.2 = .symbol s.2 := by decide
  exact all _ h

/-- The forms of a lexeme, by what the grammar calls them. -/
theorem lexeme_cases {kind : Kind} {characters rest : List Char}
    (h : (Segment.lexeme kind characters).EndsBefore rest) :
    (characters, kind) ∈ symbols
      ∨ (characters ∈ Pattern.word.language ∧ kind = Kind.ofWord (String.ofList characters))
      ∨ (characters ∈ Pattern.number.language ∧ kind = .number)
      ∨ (characters ∈ Pattern.string.language ∧ kind = .string) := by
  cases h with
  | punctuator hc => exact .inl (mem_symbols_of_punctuator hc)
  | alone hc _ => exact .inl (mem_symbols_of_operator hc).1
  | withEqual hc => exact .inl (mem_symbols_of_operator hc).2
  | slash _ => exact .inl (by decide)
  | word hc hcs _ => exact .inr (.inl ⟨mem_word.mpr ⟨_, _, rfl, hc, hcs⟩, rfl⟩)
  | whole hc hcs _ _ =>
    have digits := mem_number.mpr ⟨_, _, [], congrArg _ (List.append_nil _).symm, hc, hcs, .inl rfl⟩
    exact .inr (.inr (.inl ⟨digits, rfl⟩))
  | decimal hc hcs hd hds _ =>
    have digits := mem_number.mpr ⟨_, _, _, rfl, hc, hcs, .inr ⟨_, _, rfl, hd, hds⟩⟩
    exact .inr (.inr (.inl ⟨digits, rfl⟩))
  | string hbody => exact .inr (.inr (.inr ⟨mem_string.mpr ⟨_, rfl, hbody⟩, rfl⟩))

theorem mem_ofKind {kind : Kind} {characters rest : List Char}
    (h : (Segment.lexeme kind characters).EndsBefore rest) :
    characters ∈ (Pattern.ofKind kind).language := by
  rcases lexeme_cases h with listed | ⟨fits, rfl⟩ | ⟨fits, rfl⟩ | ⟨fits, rfl⟩
  · rw [ofKind_of_symbol listed]
    exact mem_symbol.mpr listed
  · rw [ofKind_ofWord]
    exact fits
  · exact fits
  · exact fits

theorem not_matches_foreign {c : Char} {rest text : List Char} (hc : classify c = .foreign)
    (starts : text <+: c :: rest) : ¬ Matches text := by
  intro known
  cases text with
  | nil =>
    obtain ⟨p, hp⟩ := known
    exact nil_notMem_language p hp
  | cons d other =>
    obtain ⟨same, _⟩ := List.cons_prefix_cons.mp starts
    obtain ⟨q, hq⟩ := matches_cons_iff.mp known
    rw [same, hc] at hq
    cases hq

theorem not_matches_openString {body text : List Char} (hbody : '"' ∉ body)
    (starts : text <+: '"' :: body) : ¬ Matches text := by
  intro known
  cases text with
  | nil =>
    obtain ⟨p, hp⟩ := known
    exact nil_notMem_language p hp
  | cons d other =>
    obtain ⟨same, goes⟩ := List.cons_prefix_cons.mp starts
    subst same
    obtain ⟨q, hq⟩ := matches_cons_iff.mp known
    cases (hq : GoesOn .quote other q) with
    | string _ =>
      have closes : '"' ∈ body := goes.subset (by simp)
      exact hbody closes

namespace Segment.EndsBefore

theorem longestMatch {seg : Segment} {rest : List Char} (h : seg.EndsBefore rest)
    (fits : Matches seg.text) : LongestMatch (seg.text ++ rest) seg.text := by
  refine ⟨List.prefix_append _ _, fits, ?_⟩
  intro other starts known
  obtain ⟨c, cs, hcs⟩ := List.exists_cons_of_ne_nil h.text_ne_nil
  cases other with
  | nil => exact Nat.zero_le _
  | cons d other =>
    obtain ⟨q, hq⟩ := matches_cons_iff.mp known
    rw [hcs] at starts ⊢
    obtain ⟨same, goes⟩ := List.cons_prefix_cons.mp starts
    subst same
    exact Nat.succ_le_succ (h.length_le hcs hq goes)

/-- A complete segment is the longest match of the grammar, or it is one of the two pieces that
stand where the grammar knows no match. -/
theorem munch_cases {seg : Segment} {rest : List Char} (h : seg.EndsBefore rest) :
    (∃ p, seg.piece = .matched p seg.text ∧ seg.text ∈ p.language
        ∧ LongestMatch (seg.text ++ rest) seg.text)
      ∨ (∀ text, text <+: seg.text ++ rest → ¬ Matches text)
        ∧ ((∃ c, c ≠ '"' ∧ seg = .foreign c) ∨ ∃ body, seg = .openString body ∧ rest = []) := by
  cases seg with
  | blank c =>
    cases h with
    | blank hc =>
      have fits : [c] ∈ Pattern.blank.language := mem_blank.mpr ⟨c, rfl, hc⟩
      exact .inl ⟨.blank, rfl, fits, longestMatch (.blank hc) ⟨.blank, fits⟩⟩
  | comment body =>
    cases h with
    | comment hbody hrest =>
      have fits : '/' :: '/' :: body ∈ Pattern.comment.language := mem_comment.mpr ⟨_, rfl, hbody⟩
      exact .inl ⟨.comment, rfl, fits, longestMatch (.comment hbody hrest) ⟨.comment, fits⟩⟩
  | lexeme kind characters =>
    have fits := mem_ofKind h
    exact .inl ⟨Pattern.ofKind kind, rfl, fits, h.longestMatch ⟨_, fits⟩⟩
  | foreign c =>
    cases h with
    | foreign hc =>
      refine .inr ⟨fun text starts => not_matches_foreign hc starts, .inl ⟨c, ?_, rfl⟩⟩
      intro same
      subst same
      contradiction
  | openString body =>
    cases h with
    | openString hbody =>
      refine .inr ⟨fun text starts => ?_, .inr ⟨body, rfl, rfl⟩⟩
      rw [List.append_nil] at starts
      exact not_matches_openString hbody starts

end Segment.EndsBefore

theorem munch_segments (cs : List Char) : Munch cs ((segments cs).map Segment.piece) := by
  induction cs using source_induction with
  | nil =>
    rw [segments_nil]
    exact .done
  | cut seg rest h ih =>
    rw [segments_append h, List.map_cons]
    rcases h.munch_cases with ⟨p, piece, fits, longest⟩ | ⟨none, ⟨c, other, rfl⟩ | ⟨body, rfl, rfl⟩⟩
    · rw [piece]
      exact .matched fits longest ih
    · exact .foreign other none ih
    · rw [List.append_nil] at none ⊢
      rw [segments_nil]
      exact .openString none

theorem text_piece (seg : Segment) : seg.piece.text = seg.text := by
  cases seg <;> rfl

theorem LongestMatch.unique {source a b : List Char} (ha : LongestMatch source a)
    (hb : LongestMatch source b) : a = b := by
  have shorter : b.length ≤ a.length := ha.longest b hb.starts hb.fits
  have longer : a.length ≤ b.length := hb.longest a ha.starts ha.fits
  have within : a <+: b := List.prefix_of_prefix_length_le ha.starts hb.starts longer
  exact within.eq_of_length_le shorter

/-- A source falls into pieces in one way only. -/
theorem munch_unique {cs : List Char} {pieces : List Piece} (h : Munch cs pieces) :
    pieces = (segments cs).map Segment.piece := by
  induction h with
  | done =>
    rw [segments_nil]
    rfl
  | @matched p text rest pieces fits longest later ih =>
    have filled : text ++ rest ≠ [] := by
      intro empty
      rw [(List.append_eq_nil_iff.mp empty).1] at fits
      exact nil_notMem_language p fits
    obtain ⟨seg, rest', ends, cut⟩ := exists_cut filled
    rw [cut] at longest
    rcases ends.munch_cases with ⟨q, piece, fits', longest'⟩ | ⟨none, _⟩
    · have same := longest.unique longest'
      rw [same, List.append_cancel_left_eq] at cut
      rw [same] at fits ⊢
      rw [cut, segments_append ends, List.map_cons, piece, pattern_unique fits fits', ← cut, ih]
    · exact absurd longest.fits (none text longest.starts)
  | @openString body none =>
    obtain ⟨seg, rest, ends, cut⟩ := exists_cut (List.cons_ne_nil '"' body)
    rw [cut] at none ⊢
    rcases ends.munch_cases with ⟨_, _, _, longest⟩ | ⟨_, ⟨c, other, rfl⟩ | ⟨body', rfl, rfl⟩⟩
    · exact absurd longest.fits (none _ longest.starts)
    · exact absurd (List.cons.inj cut).1.symm other
    · rw [segments_append ends, segments_nil, List.append_nil]
      rfl
  | @foreign c rest pieces other none later ih =>
    obtain ⟨seg, rest', ends, cut⟩ := exists_cut (List.cons_ne_nil c rest)
    rw [cut] at none
    rcases ends.munch_cases with ⟨_, _, _, longest⟩ | ⟨_, ⟨d, _, rfl⟩ | ⟨body, rfl, rfl⟩⟩
    · exact absurd longest.fits (none _ longest.starts)
    · obtain ⟨rfl, rfl⟩ := List.cons.inj cut
      rw [cut, segments_append ends, ih]
      rfl
    · exact absurd (List.cons.inj cut).1 other

theorem munch_iff {cs : List Char} {pieces : List Piece} :
    Munch cs pieces ↔ pieces = (segments cs).map Segment.piece := by
  constructor
  · exact munch_unique
  · intro h
    rw [h]
    exact munch_segments cs

/-! ### Tokens and reports of the pieces -/

theorem names_ofWord (characters : List Char) :
    Pattern.word.Names characters (Kind.ofWord (String.ofList characters)) := by
  unfold Kind.ofWord
  cases found : keyword? (String.ofList characters) with
  | none =>
    apply Pattern.Names.identifier
    intro w spelled
    have listed := keyword?_spelling w
    rw [← spelled, String.ofList_toList, listed] at found
    contradiction
  | some w =>
    have spelled := congrArg String.toList (spelling_of_keyword? found)
    rw [String.toList_ofList] at spelled
    rw [← spelled]
    exact .reserved w

theorem names_of_endsBefore {kind : Kind} {characters rest : List Char}
    (h : (Segment.lexeme kind characters).EndsBefore rest) :
    (Pattern.ofKind kind).Names characters kind := by
  rcases lexeme_cases h with listed | ⟨_, rfl⟩ | ⟨_, rfl⟩ | ⟨_, rfl⟩
  · rw [ofKind_of_symbol listed]
    exact .symbol _ _
  · rw [ofKind_ofWord]
    exact names_ofWord characters
  · exact .number _
  · exact .string _

theorem literalOf_of_symbol {kind : Kind} (h : Pattern.ofKind kind = .symbol kind)
    (characters : List Char) : literalOf kind characters = none := by
  cases kind <;> first | rfl | contradiction

theorem literalOf_ofWord (word : String) (characters : List Char) :
    literalOf (Kind.ofWord word) characters = none := by
  unfold Kind.ofWord
  cases keyword? word <;> rfl

theorem literalOf_string (body : List Char) :
    literalOf .string ('"' :: body ++ ['"']) = some (.text (String.ofList body)) := by
  simp [literalOf]

theorem carries_of_endsBefore {kind : Kind} {characters rest : List Char}
    (h : (Segment.lexeme kind characters).EndsBefore rest) :
    (Pattern.ofKind kind).Carries characters (literalOf kind characters) := by
  rcases lexeme_cases h with listed | ⟨_, rfl⟩ | ⟨_, rfl⟩ | ⟨fits, rfl⟩
  · rw [literalOf_of_symbol (ofKind_of_symbol listed), ofKind_of_symbol listed]
    exact .symbol _ _
  · rw [literalOf_ofWord, ofKind_ofWord]
    exact .word _
  · exact .number _
  · obtain ⟨body, rfl, _⟩ := mem_string.mp fits
    rw [literalOf_string]
    exact .string body

theorem makes_of_endsBefore {kind : Kind} {characters rest : List Char}
    (h : (Segment.lexeme kind characters).EndsBefore rest) (line : UInt32) :
    (Pattern.ofKind kind).Makes characters (tokenOf kind characters line) :=
  ⟨rfl, names_of_endsBefore h, carries_of_endsBefore h⟩

theorem lexeme?_piece_lexeme (kind : Kind) (characters : List Char) :
    (Segment.lexeme kind characters).piece.lexeme? = some (Pattern.ofKind kind, characters) := by
  cases kind <;> rfl

theorem tokens_of_pieces (cs : List Char) (line : UInt32) :
    List.Forall₂ (fun lexeme t => lexeme.1.Makes lexeme.2 t)
      (((segments cs).map Segment.piece).filterMap Piece.lexeme?) (tokensFrom line (segments cs)) := by
  induction cs using source_induction generalizing line with
  | nil =>
    rw [segments_nil]
    exact .nil
  | cut seg rest h ih =>
    have later := ih (line + seg.lineEnds)
    rw [segments_append h, List.map_cons]
    cases seg with
    | blank c => exact later
    | comment body => exact later
    | foreign c => exact later
    | openString body => exact later
    | lexeme kind characters =>
      rw [List.filterMap_cons_some (lexeme?_piece_lexeme kind characters)]
      exact .cons (makes_of_endsBefore h _) later

theorem reports_of_pieces (ss : List Segment) (line : UInt32) :
    (reportsFrom line ss).map Report.message = (ss.map Segment.piece).filterMap Piece.complaint? := by
  induction ss generalizing line with
  | nil => rfl
  | cons s rest ih =>
    have later := ih (line + s.lineEnds)
    cases s with
    | blank c => exact later
    | comment body => exact later
    | lexeme kind characters => exact later
    | foreign c => exact congrArg _ later
    | openString body => exact congrArg _ later

theorem texts_of_pieces (cs : List Char) :
    ((segments cs).map Segment.piece).flatMap Piece.text = cs := by
  simp only [List.flatMap_map, text_piece]
  exact texts_segments cs

theorem scan_maximalMunch (source : String) :
    ∃ pieces, (∀ other, Munch source.toList other ↔ other = pieces)
      ∧ pieces.flatMap Piece.text = source.toList
      ∧ (∃ tokens line, (scan source).tokens = tokens ++ [Token.endOfSource line]
        ∧ List.Forall₂ (fun lexeme t => lexeme.1.Makes lexeme.2 t)
            (pieces.filterMap Piece.lexeme?) tokens)
      ∧ (scan source).reports.map Report.message = pieces.filterMap Piece.complaint? := by
  refine ⟨(segments source.toList).map Segment.piece, fun _ => munch_iff,
    texts_of_pieces source.toList, ⟨_, _, scan_tokens source, tokens_of_pieces source.toList 1⟩, ?_⟩
  rw [scan_reports]
  exact reports_of_pieces _ _

end Lox.Lexical
