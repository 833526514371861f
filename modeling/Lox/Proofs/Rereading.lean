import Lox.Proofs.Continuation

/-!
# Reading tokens again

A scan of a text that has been put together from lexemes should give back the tokens that they come
from, up to the lines.  `Yields` says so of a source and `Spells` of its segments; the two are the
same (`yields_iff`).  A token of a scan is determined by its kind and its lexeme, and these are a
lexeme of the grammar wherever they are found.
-/

namespace Lox

/-- What a token says apart from its line. -/
def Token.content (t : Token) : Kind × String × Option Literal := (t.kind, t.lexeme, t.literal)

namespace Lexical

/-- A token of some scan, the mark of the end apart. -/
structure Produced (t : Token) : Prop where
  kind : t.kind ≠ .endOfSource
  found : ∃ source, t ∈ (scan source).tokens

/-- Nothing is wrong with the source, and its tokens are these, on whatever lines, with the mark of
the end after them. -/
structure Yields (source : String) (ts : List Token) : Prop where
  reports : (scan source).reports = []
  tokens : ∃ tokens line, (scan source).tokens = tokens ++ [Token.endOfSource line]
    ∧ tokens.map Token.content = ts.map Token.content

/-! ### Segments that spell tokens -/

namespace Segment

def isFault : Segment → Bool
  | foreign _ | openString _ => true
  | _ => false

def content? : Segment → Option (Kind × String × Option Literal)
  | lexeme kind characters => some (kind, String.ofList characters, literalOf kind characters)
  | _ => none

theorem report?_eq_none_iff (s : Segment) (line : UInt32) :
    s.report? line = none ↔ s.isFault = false := by
  cases s <;> simp [report?, isFault]

theorem map_content_token? (s : Segment) (line : UInt32) :
    (s.token? line).map Token.content = s.content? := by
  cases s <;> rfl

end Segment

structure Spells (ss : List Segment) (ts : List Token) : Prop where
  faultless : ∀ s ∈ ss, s.isFault = false
  contents : ss.filterMap Segment.content? = ts.map Token.content

theorem reportsFrom_eq_nil_iff (line : UInt32) (ss : List Segment) :
    reportsFrom line ss = [] ↔ ∀ s ∈ ss, s.isFault = false := by
  induction ss generalizing line with
  | nil => simp [reportsFrom]
  | cons s rest ih =>
    rw [reportsFrom, List.append_eq_nil_iff, ih, Option.toList_eq_nil_iff,
      Segment.report?_eq_none_iff, List.forall_mem_cons]

theorem map_content_tokensFrom (line : UInt32) (ss : List Segment) :
    (tokensFrom line ss).map Token.content = ss.filterMap Segment.content? := by
  induction ss generalizing line with
  | nil => rfl
  | cons s rest ih =>
    have here := s.map_content_token? (line + s.lineEnds)
    rw [tokensFrom, List.map_append, ih, List.filterMap_cons, ← here]
    cases s.token? (line + s.lineEnds) <;> rfl

theorem yields_iff {source : String} {ts : List Token} :
    Yields source ts ↔ Spells (segments source.toList) ts := by
  have split := scan_tokens source
  have contents := map_content_tokensFrom 1 (segments source.toList)
  constructor
  · intro h
    obtain ⟨tokens, line, cut, same⟩ := h.tokens
    have reports := h.reports
    rw [scan_reports] at reports
    rw [split] at cut
    obtain ⟨rfl, _⟩ := List.append_inj' cut rfl
    exact ⟨(reportsFrom_eq_nil_iff _ _).mp reports, contents.symm.trans same⟩
  · intro h
    refine ⟨?_, _, _, split, contents.trans h.contents⟩
    rw [scan_reports]
    exact (reportsFrom_eq_nil_iff _ _).mpr h.faultless

namespace Spells

theorem nil : Spells [] [] := ⟨nofun, rfl⟩

theorem skip {s : Segment} (faultless : s.isFault = false) (content : s.content? = none) :
    Spells [s] [] :=
  ⟨List.forall_mem_singleton.mpr faultless, List.filterMap_cons_none content⟩

theorem append {ss ss' : List Segment} {ts ts' : List Token} (h : Spells ss ts)
    (h' : Spells ss' ts') : Spells (ss ++ ss') (ts ++ ts') := by
  refine ⟨?_, ?_⟩
  · intro s hs
    rcases List.mem_append.mp hs with here | later
    · exact h.faultless s here
    · exact h'.faultless s later
  · rw [List.filterMap_append, List.map_append, h.contents, h'.contents]

end Spells

/-! ### Tokens of scans -/

theorem exists_lexeme_of_mem {t : Token} {line : UInt32} {ss : List Segment}
    (h : t ∈ tokensFrom line ss) :
    ∃ kind characters line', .lexeme kind characters ∈ ss ∧ t = tokenOf kind characters line' := by
  induction ss generalizing line with
  | nil => contradiction
  | cons s rest ih =>
    rcases List.mem_append.mp h with here | later
    · cases s with
      | lexeme kind characters =>
        exact ⟨kind, characters, _, List.mem_cons_self, List.mem_singleton.mp here⟩
      | _ => contradiction
    · obtain ⟨kind, characters, line', mem, same⟩ := ih later
      exact ⟨kind, characters, line', List.mem_cons_of_mem s mem, same⟩

/-- The segment that a token of a scan was made from. -/
def segmentOf (t : Token) : Segment := .lexeme t.kind t.lexeme.toList

@[simp] theorem text_segmentOf (t : Token) : (segmentOf t).text = t.lexeme.toList := rfl

/-- The lexeme is one of the kind, and the literal is the one that belongs to them. -/
structure Wellformed (t : Token) : Prop where
  isLexeme : IsLexeme t.kind t.lexeme.toList
  literal : t.literal = literalOf t.kind t.lexeme.toList

theorem wellformed_of_mem {line : UInt32} {cs : List Char} {t : Token}
    (h : t ∈ tokensFrom line (segments cs)) : Wellformed t := by
  obtain ⟨kind, characters, line', mem, rfl⟩ := exists_lexeme_of_mem h
  have same : (tokenOf kind characters line').lexeme.toList = characters := String.toList_ofList
  constructor
  · rw [same]
    exact exists_endsBefore_of_mem mem
  · rw [same]
    rfl

theorem Produced.wellformed {t : Token} (h : Produced t) : Wellformed t := by
  obtain ⟨source, mem⟩ := h.found
  rw [scan_tokens] at mem
  rcases List.mem_append.mp mem with inside | final
  · exact wellformed_of_mem inside
  · rw [List.mem_singleton.mp final] at h
    exact absurd rfl h.kind

theorem produced_of_mem_tokensFrom {source : String} {t : Token}
    (h : t ∈ tokensFrom 1 (segments source.toList)) : Produced t := by
  refine ⟨(wellformed_of_mem h).isLexeme.ne_endOfSource, source, ?_⟩
  rw [scan_tokens]
  exact List.mem_append_left _ h

theorem produced_of_mem {source : String} {ts : List Token} {line : UInt32} {t : Token}
    (h : (scan source).tokens = ts ++ [Token.endOfSource line]) (ht : t ∈ ts) : Produced t := by
  rw [scan_tokens] at h
  obtain ⟨rfl, _⟩ := List.append_inj' h rfl
  exact produced_of_mem_tokensFrom ht

/-- A token is produced where its source falls into these segments. -/
theorem produced_of_cut {source : String} {ss : List Segment} {t : Token}
    (cut : segments source.toList = ss) (h : t ∈ tokensFrom 1 ss) : Produced t := by
  subst cut
  exact produced_of_mem_tokensFrom h

theorem Wellformed.spells {t : Token} (h : Wellformed t) : Spells [segmentOf t] [t] := by
  have content : (segmentOf t).content? = some t.content := by
    rw [Token.content, h.literal, ← String.ofList_toList (s := t.lexeme)]
    simp [segmentOf, Segment.content?]
  exact ⟨List.forall_mem_singleton.mpr rfl, List.filterMap_cons_some content⟩

end Lexical

end Lox
