import Lox.Command.Program
import Lox.Proofs.Rereading

/-!
# Listings tell tokens apart

A listing writes the text of each token on a line of its own, but the text of a string is written
as it stands and may hold line ends, blanks and all that other tokens look like.  Still no text of a
token begins another one: the kind ends at the first blank, the lexeme of a string at the second
quote and any other lexeme at the next blank, and kind and lexeme leave no choice for what is left.
-/

namespace Lox

open Lexical

/-! ### The name of a kind -/

theorem Kind.name_injective {k l : Kind} (h : k.name = l.name) : k = l := by
  have distinct : (Kind.all.map name).Nodup := by decide +kernel
  exact List.inj_on_of_nodup_map distinct (mem_all k) (mem_all l) h

theorem Kind.isBlank_eq_false_of_mem_name {k : Kind} : ∀ c ∈ k.name.toList, isBlank c = false := by
  have all : ∀ l ∈ Kind.all, (l.name.toList.all fun c => !isBlank c) = true := by decide +kernel
  intro c mem
  have solid := List.all_eq_true.mp (all k (mem_all k)) c mem
  simpa using solid

namespace Lexical

/-! ### A lexeme up to its end -/

theorem symbol_or_plain {kind : Kind} {characters : List Char} (h : IsLexeme kind characters)
    (other : kind ≠ .string) :
    (characters, kind) ∈ symbols ∨ ∀ c ∈ characters, isWordChar c ∨ c = '.' := by
  have digits {ds : List Char} (hds : ∀ d ∈ ds, d.isDigit) : ∀ d ∈ ds, isWordChar d ∨ d = '.' :=
    fun d hd => .inl (isWordChar_of_isDigit (hds d hd))
  obtain ⟨_, found⟩ := h
  rcases lexeme_cases found with listed | ⟨fits, _⟩ | ⟨fits, _⟩ | ⟨_, string⟩
  · exact .inl listed
  · obtain ⟨c, cs, rfl, hc, hcs⟩ := mem_word.mp fits
    have word : ∀ d ∈ c :: cs, isWordChar d :=
      List.forall_mem_cons.mpr ⟨isWordChar_of_isLetter hc, hcs⟩
    exact .inr fun d hd => .inl (word d hd)
  · obtain ⟨c, cs, tail, rfl, hc, hcs, fraction⟩ := mem_number.mp fits
    have whole := digits (List.forall_mem_cons.mpr ⟨hc, hcs⟩)
    rw [← List.cons_append, List.forall_mem_append]
    rcases fraction with rfl | ⟨d, ds, rfl, hd, hds⟩
    · exact .inr ⟨whole, nofun⟩
    · have places := digits (List.forall_mem_cons.mpr ⟨hd, hds⟩)
      exact .inr ⟨whole, List.forall_mem_cons.mpr ⟨.inr rfl, places⟩⟩
  · contradiction

theorem isBlank_eq_false_of_mem_lexeme {kind : Kind} {characters : List Char}
    (h : IsLexeme kind characters) (other : kind ≠ .string) : ∀ c ∈ characters, isBlank c = false := by
  intro c mem
  rcases symbol_or_plain h other with listed | plain
  · have all : ∀ s ∈ symbols, (s.1.all fun c => !isBlank c) = true := by decide
    have solid := List.all_eq_true.mp (all _ listed) c mem
    simpa using solid
  · rcases plain c mem with word | rfl
    · exact isBlank_eq_false_of_isWordChar word
    · rfl

theorem exists_body_of_string {characters : List Char} (h : IsLexeme .string characters) :
    ∃ body, characters = '"' :: (body ++ ['"']) ∧ '"' ∉ body := by
  obtain ⟨_, found⟩ := h
  exact mem_string.mp (mem_ofKind found)

/-- Two lexemes of one kind with a blank after each, unless they are strings: if the texts are the
same, then so are the lexemes. -/
theorem lexeme_unique {kind : Kind} {cs cs' rest rest' : List Char} (h : IsLexeme kind cs)
    (h' : IsLexeme kind cs') (hrest : ∀ c ∈ rest.head?, isBlank c)
    (hrest' : ∀ c ∈ rest'.head?, isBlank c)
    (same : cs ++ rest = cs' ++ rest') : cs = cs' := by
  by_cases string : kind = .string
  · subst string
    obtain ⟨body, rfl, hbody⟩ := exists_body_of_string h
    obtain ⟨body', rfl, hbody'⟩ := exists_body_of_string h'
    have inner : (body ++ ['"']) ++ rest = body' ++ '"' :: rest' := by
      have tails : (body ++ ['"']) ++ rest = (body' ++ ['"']) ++ rest' := (List.cons.inj same).2
      rw [List.append_assoc body'] at tails
      exact tails
    rw [quote_unique hbody' hbody inner]
  · have solid := isBlank_eq_false_of_mem_lexeme h string
    have solid' := isBlank_eq_false_of_mem_lexeme h' string
    have runs := run_unique (p := fun c => !isBlank c) (by simpa using solid)
      (by simpa using hrest) (by simpa using solid') (by simpa using hrest') same
    exact runs.1

end Lexical

/-! ### The text of a token -/

/-- What the text of a token has after its lexeme. -/
def valueText (kind : Kind) (characters : List Char) : List Char :=
  match literalOf kind characters with
  | none => []
  | some value => ' ' :: value.render.toList

theorem head?_valueText (kind : Kind) (characters rest : List Char) :
    ∀ c ∈ (valueText kind characters ++ '\n' :: rest).head?, isBlank c := by
  intro c hc
  unfold valueText at hc
  split at hc
  · cases hc
    rfl
  · cases hc
    rfl

theorem Lexical.Wellformed.toList_render {t : Token} (h : Wellformed t) :
    t.render.toList
      = t.kind.name.toList ++ ' ' :: (t.lexeme.toList ++ valueText t.kind t.lexeme.toList) := by
  have filled : t.lexeme.isEmpty = false := by
    have text := h.isLexeme.ne_nil
    simpa [String.isEmpty_iff] using text
  rw [Token.render, valueText, filled, h.literal]
  cases literalOf t.kind t.lexeme.toList <;> simp

/-- A token that a listing can hold. -/
inductive Listable : Token → Prop
  | endOfSource (line : UInt32) : Listable (Token.endOfSource line)
  | lexeme {t : Token} (h : Wellformed t) : Listable t

theorem render_of_content {t u : Token} (h : t.content = u.content) : t.render = u.render := by
  obtain ⟨kind, lexeme, literal⟩ :
      t.kind = u.kind ∧ t.lexeme = u.lexeme ∧ t.literal = u.literal := by
    simpa [Token.content] using h
  rw [Token.render, Token.render, kind, lexeme, literal]

namespace Listable

variable {t u : Token} {rest rest' : List Char}

theorem exists_tail (h : Listable t) (rest : List Char) :
    ∃ tail, (∀ c ∈ tail.head?, isBlank c)
      ∧ t.render.toList ++ '\n' :: rest = t.kind.name.toList ++ tail := by
  cases h with
  | endOfSource line =>
    refine ⟨'\n' :: rest, by simp [isBlank], ?_⟩
    rw [Token.render_endOfSource]
    rfl
  | lexeme h =>
    refine ⟨' ' :: (t.lexeme.toList ++ valueText t.kind t.lexeme.toList) ++ '\n' :: rest,
      by simp [isBlank], ?_⟩
    rw [h.toList_render, List.append_assoc]

theorem kind_unique (ht : Listable t) (hu : Listable u)
    (same : t.render.toList ++ '\n' :: rest = u.render.toList ++ '\n' :: rest') :
    t.kind = u.kind := by
  obtain ⟨tail, blank, text⟩ := ht.exists_tail rest
  obtain ⟨tail', blank', text'⟩ := hu.exists_tail rest'
  rw [text, text'] at same
  have names := run_unique (p := fun c => !isBlank c)
    (by simpa using Kind.isBlank_eq_false_of_mem_name) (by simpa using blank)
    (by simpa using Kind.isBlank_eq_false_of_mem_name) (by simpa using blank') same
  apply Kind.name_injective
  rw [← String.toList_inj]
  exact names.1

/-- The text of a token with a line end after it is never the start of another such text. -/
theorem content_unique (ht : Listable t) (hu : Listable u)
    (same : t.render.toList ++ '\n' :: rest = u.render.toList ++ '\n' :: rest') :
    t.content = u.content ∧ rest = rest' := by
  have kind := ht.kind_unique hu same
  have content : t.content = u.content := by
    cases ht with
    | endOfSource line =>
      cases hu with
      | endOfSource line' => rfl
      | lexeme h' => exact absurd kind.symm h'.isLexeme.ne_endOfSource
    | lexeme h =>
      cases hu with
      | endOfSource line' => exact absurd kind h.isLexeme.ne_endOfSource
      | lexeme h' =>
        have known : IsLexeme t.kind u.lexeme.toList := kind ▸ h'.isLexeme
        rw [h.toList_render, h'.toList_render, ← kind] at same
        simp only [List.append_assoc, List.cons_append, List.append_cancel_left_eq,
          List.cons.injEq, true_and] at same
        have lexeme := lexeme_unique h.isLexeme known (head?_valueText _ _ _)
          (head?_valueText _ _ _) same
        rw [Token.content, Token.content, h.literal, h'.literal, ← kind, lexeme,
          String.toList_inj.mp lexeme]
  refine ⟨content, ?_⟩
  rw [render_of_content content, List.append_cancel_left_eq] at same
  exact (List.cons.inj same).2

end Listable

/-! ### Whole listings -/

namespace Command

theorem toList_listing_cons (t : Token) (ts : List Token) :
    (listing (t :: ts)).toList = t.render.toList ++ '\n' :: (listing ts).toList := by
  rw [listing, List.map_cons, String.join_cons, String.toList_append, String.toList_append,
    List.append_assoc]
  rfl

theorem listing_of_contents {ts us : List Token}
    (h : ts.map Token.content = us.map Token.content) : listing ts = listing us := by
  induction ts generalizing us with
  | nil => rw [List.map_eq_nil_iff.mp h.symm]
  | cons t ts ih =>
    obtain ⟨u, us, rfl, content, later⟩ := List.map_eq_cons_iff.mp h.symm
    rw [← String.toList_inj, toList_listing_cons, toList_listing_cons,
      render_of_content content, ih later.symm]

theorem contents_of_listing {ts us : List Token} (hts : ∀ t ∈ ts, Listable t)
    (hus : ∀ u ∈ us, Listable u) (same : listing ts = listing us) :
    ts.map Token.content = us.map Token.content := by
  have texts := congrArg String.toList same
  clear same
  induction ts generalizing us with
  | nil =>
    cases us with
    | nil => rfl
    | cons u us =>
      rw [toList_listing_cons] at texts
      have empty := List.append_eq_nil_iff.mp texts.symm
      exact absurd empty.2 (List.cons_ne_nil _ _)
  | cons t ts ih =>
    obtain ⟨ht, later⟩ := List.forall_mem_cons.mp hts
    cases us with
    | nil =>
      rw [toList_listing_cons] at texts
      have empty := List.append_eq_nil_iff.mp texts
      exact absurd empty.2 (List.cons_ne_nil _ _)
    | cons u us =>
      obtain ⟨hu, later'⟩ := List.forall_mem_cons.mp hus
      rw [toList_listing_cons, toList_listing_cons] at texts
      obtain ⟨content, rest⟩ := ht.content_unique hu texts
      rw [List.map_cons, List.map_cons, content, ih later later' rest]

theorem listable_of_mem_scan {source : String} {t : Token} (h : t ∈ (scan source).tokens) :
    Listable t := by
  rw [scan_tokens] at h
  rcases List.mem_append.mp h with inside | final
  · exact .lexeme (wellformed_of_mem inside)
  · rw [List.mem_singleton.mp final]
    exact .endOfSource _

/-- Two scans are listed alike just when their tokens are the same up to their lines: as many of
them, and each of the same kind with the same lexeme and the same literal. -/
theorem listing_scan_eq_iff (source source' : String) :
    listing (scan source).tokens = listing (scan source').tokens
      ↔ (scan source).tokens.map Token.content = (scan source').tokens.map Token.content := by
  constructor
  · intro same
    have listable : ∀ t ∈ (scan source).tokens, Listable t := fun _ => listable_of_mem_scan
    have listable' : ∀ t ∈ (scan source').tokens, Listable t := fun _ => listable_of_mem_scan
    exact contents_of_listing listable listable' same
  · exact listing_of_contents

-- The second line of a string looks like the end of the source.
example : listing (scan "\"x\nEOF\"").tokens = "STRING \"x\nEOF\" x\nEOF\nEOF\n" := by decide +kernel

end Command

end Lox
