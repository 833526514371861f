import Lox.Proofs.Rereading

/-!
# Lexemes without anything between them

Most lexemes can be written one right after the other.  `Clashes` lists the few ways in which a token
runs into what follows it, and a scan of the lexemes gives the tokens back just if there is none.
All but one of them concern two neighbours: a number takes a point as its own only if a digit
follows, so there the third token decides.
-/

namespace Lox.Lexical

/-- The lexeme of the second kind goes on with the one of the first. -/
def Fuses (a b : Kind) : Prop :=
  match a with
  | .identifier | .keyword _ => b.isWord ∨ b = .number
  | .number => b = .number
  | .bang | .equal | .greater | .less => b = .equal ∨ b = .equalEqual
  | .slash => b = .slash
  | _ => False

/-- The token runs into the tokens after it. -/
inductive RunsOn (t : Token) : List Token → Prop
  | pair {u ts} (h : Fuses t.kind u.kind) : RunsOn t (u :: ts)
  | point {u v ts} (number : t.kind = .number) (whole : '.' ∉ t.lexeme.toList) (dot : u.kind = .dot)
      (fraction : v.kind = .number) : RunsOn t (u :: v :: ts)

/-- Somewhere in the list a token runs into those after it. -/
inductive Clashes : List Token → Prop
  | here {t ts} (h : RunsOn t ts) : Clashes (t :: ts)
  | later {t ts} (h : Clashes ts) : Clashes (t :: ts)

theorem clashes_cons_iff {t : Token} {ts : List Token} :
    Clashes (t :: ts) ↔ RunsOn t ts ∨ Clashes ts := by
  constructor
  · intro h
    cases h with
    | here h => exact .inl h
    | later h => exact .inr h
  · rintro (h | h)
    · exact .here h
    · exact .later h

def glued (ts : List Token) : List Char := ts.flatMap fun t => t.lexeme.toList

theorem glued_cons (t : Token) (ts : List Token) :
    glued (t :: ts) = t.lexeme.toList ++ glued ts := List.flatMap_cons

/-! ### Which tokens run on -/

theorem exists_fraction_iff {b : Kind} {c : Char} {more : List Char} (h : Opens c b) :
    (∃ d tail, c :: more = '.' :: d :: tail ∧ d.isDigit)
      ↔ b = .dot ∧ ∃ d ∈ more.head?, d.isDigit := by
  rw [← h.point]
  constructor
  · rintro ⟨d, tail, same, digit⟩
    obtain ⟨rfl, rfl⟩ := List.cons.inj same
    exact ⟨rfl, d, rfl, digit⟩
  · rintro ⟨rfl, d, hd, digit⟩
    obtain ⟨tail, rfl⟩ := List.head?_eq_some_iff.mp hd
    exact ⟨d, tail, rfl, digit⟩

theorem continues_cons_iff {a b : Kind} {c : Char} {characters more : List Char} (h : Opens c b) :
    Continues a characters (c :: more) ↔ Fuses a b
      ∨ (a = .number ∧ '.' ∉ characters ∧ b = .dot ∧ ∃ d ∈ more.head?, d.isDigit) := by
  cases a with
  | number =>
    simp only [Continues, exists_fraction_iff h]
    simp [Fuses, h.digit]
  | _ => simp [Continues, Fuses, h.word, h.equal, h.slash]

theorem not_continues_nil (kind : Kind) (characters : List Char) :
    ¬ Continues kind characters [] := by
  cases kind <;> simp [Continues]

/-- The next token begins with a digit just if it is a number. -/
theorem exists_digit_glued_iff {ts : List Token} (wellformed : ∀ t ∈ ts, Wellformed t) :
    (∃ d ∈ (glued ts).head?, d.isDigit) ↔ ∃ t ts', ts = t :: ts' ∧ t.kind = .number := by
  cases ts with
  | nil => simp [glued]
  | cons t ts =>
    have isLexeme := (wellformed t List.mem_cons_self).isLexeme
    obtain ⟨c, cs, hcs⟩ := List.exists_cons_of_ne_nil isLexeme.ne_nil
    rw [hcs] at isLexeme
    rw [glued_cons, hcs]
    simp [isLexeme.opens.digit]

theorem continues_glued_iff {t : Token} {ts : List Token} (wellformed : ∀ u ∈ ts, Wellformed u) :
    Continues t.kind t.lexeme.toList (glued ts) ↔ RunsOn t ts := by
  cases ts with
  | nil => exact iff_of_false (not_continues_nil _ _) nofun
  | cons u ts =>
    obtain ⟨hu, hts⟩ := List.forall_mem_cons.mp wellformed
    obtain ⟨c, cs, hcs⟩ := List.exists_cons_of_ne_nil hu.isLexeme.ne_nil
    have isLexeme := hu.isLexeme
    rw [hcs] at isLexeme
    rw [glued_cons, hcs, List.cons_append, continues_cons_iff isLexeme.opens]
    constructor
    · rintro (pair | ⟨number, whole, dot, digit⟩)
      · exact .pair pair
      · -- the point is one character long, so the fraction begins with the token after it
        rw [dot] at isLexeme
        obtain ⟨_, rfl⟩ := List.cons.inj isLexeme.eq_point
        obtain ⟨v, ts', rfl, fraction⟩ := (exists_digit_glued_iff hts).mp digit
        exact .point number whole dot fraction
    · intro runs
      cases runs with
      | pair pair => exact .inl pair
      | point number whole dot fraction =>
        rw [dot] at isLexeme
        obtain ⟨_, rfl⟩ := List.cons.inj isLexeme.eq_point
        have digit := (exists_digit_glued_iff hts).mpr ⟨_, _, rfl, fraction⟩
        exact .inr ⟨number, whole, dot, digit⟩

/-! ### The segments of the lexemes -/

/-- Each segment is complete before those that come after it. -/
def EndInTurn : List Segment → Prop
  | [] => True
  | s :: rest => s.EndsBefore (rest.flatMap Segment.text) ∧ EndInTurn rest

theorem endInTurn_segments (cs : List Char) : EndInTurn (segments cs) := by
  induction cs using source_induction with
  | nil =>
    rw [segments_nil]
    trivial
  | cut seg rest ends ih =>
    rw [segments_append ends]
    refine ⟨?_, ih⟩
    rwa [texts_segments]

theorem segments_of_endInTurn {ss : List Segment} (h : EndInTurn ss) :
    segments (ss.flatMap Segment.text) = ss := by
  induction ss with
  | nil => exact segments_nil
  | cons s rest ih => rw [List.flatMap_cons, segments_append h.1, ih h.2]

theorem flatMap_text_segmentOf (ts : List Token) :
    (ts.map segmentOf).flatMap Segment.text = glued ts := by
  rw [List.flatMap_map]
  rfl

/-- The lexemes are the segments of the text just if each of them is complete before the rest. -/
theorem segments_glued_iff (ts : List Token) :
    segments (glued ts) = ts.map segmentOf ↔ EndInTurn (ts.map segmentOf) := by
  constructor
  · intro h
    rw [← h]
    exact endInTurn_segments _
  · intro h
    rw [← flatMap_text_segmentOf]
    exact segments_of_endInTurn h

theorem endInTurn_iff {ts : List Token} (wellformed : ∀ t ∈ ts, Wellformed t) :
    EndInTurn (ts.map segmentOf) ↔ ¬ Clashes ts := by
  induction ts with
  | nil => exact iff_of_true trivial nofun
  | cons t ts ih =>
    obtain ⟨ht, hts⟩ := List.forall_mem_cons.mp wellformed
    have here : (segmentOf t).EndsBefore (glued ts) ↔ ¬ RunsOn t ts := by
      rw [segmentOf, ht.isLexeme.endsBefore_iff, continues_glued_iff hts]
    rw [List.map_cons, EndInTurn, flatMap_text_segmentOf, here, ih hts, clashes_cons_iff, not_or]

/-! ### No room for anything else -/

theorem spells_map {ts : List Token} (wellformed : ∀ t ∈ ts, Wellformed t) :
    Spells (ts.map segmentOf) ts := by
  induction ts with
  | nil => exact .nil
  | cons t ts ih =>
    obtain ⟨ht, hts⟩ := List.forall_mem_cons.mp wellformed
    exact ht.spells.append (ih hts)

namespace Spells

variable {kind : Kind} {characters : List Char} {s : Segment} {ss : List Segment} {ts : List Token}

theorem exists_cons (h : Spells (.lexeme kind characters :: ss) ts) :
    ∃ t ts', ts = t :: ts' ∧ segmentOf t = .lexeme kind characters ∧ Spells ss ts' := by
  have contents : ts.map Token.content
      = (kind, String.ofList characters, literalOf kind characters)
        :: ss.filterMap Segment.content? := h.contents.symm
  obtain ⟨t, ts', rfl, content, later⟩ := List.map_eq_cons_iff.mp contents
  obtain ⟨same, lexeme, _⟩ : t.kind = kind ∧ t.lexeme = String.ofList characters ∧ _ := by
    simpa only [Token.content, Prod.mk.injEq] using content
  refine ⟨t, ts', rfl, ?_, (List.forall_mem_cons.mp h.faultless).2, later.symm⟩
  rw [segmentOf, same, lexeme, String.toList_ofList]

theorem of_cons (h : Spells (s :: ss) ts) (skipped : s.content? = none) : Spells ss ts := by
  refine ⟨(List.forall_mem_cons.mp h.faultless).2, ?_⟩
  rw [← h.contents, List.filterMap_cons_none skipped]

/-- The segments that spell tokens are no shorter than the lexemes. -/
theorem length_le (h : Spells ss ts) : (glued ts).length ≤ (ss.flatMap Segment.text).length := by
  induction ss generalizing ts with
  | nil =>
    obtain rfl := List.map_eq_nil_iff.mp h.contents.symm
    exact Nat.le_refl 0
  | cons s ss ih =>
    rw [List.flatMap_cons, List.length_append]
    cases s with
    | lexeme kind characters =>
      obtain ⟨t, ts', rfl, same, later⟩ := h.exists_cons
      rw [← same, glued_cons, List.length_append, text_segmentOf]
      exact Nat.add_le_add_left (ih later) _
    | _ => exact Nat.le_trans (ih (h.of_cons rfl)) (Nat.le_add_left _ _)

/-- If they are no longer either, then they are the lexemes and nothing else. -/
theorem eq_map (h : Spells ss ts) (filled : ∀ s ∈ ss, s.text ≠ [])
    (short : (ss.flatMap Segment.text).length ≤ (glued ts).length) : ss = ts.map segmentOf := by
  induction ss generalizing ts with
  | nil =>
    obtain rfl := List.map_eq_nil_iff.mp h.contents.symm
    rfl
  | cons s ss ih =>
    obtain ⟨here, rest⟩ := List.forall_mem_cons.mp filled
    rw [List.flatMap_cons, List.length_append] at short
    cases s with
    | lexeme kind characters =>
      obtain ⟨t, ts', rfl, same, later⟩ := h.exists_cons
      rw [← same, glued_cons, List.length_append, text_segmentOf] at short
      rw [List.map_cons, same, ← ih later rest (by omega)]
    | _ =>
      -- a segment of its own that spells nothing leaves too little room for the lexemes
      have room := (h.of_cons rfl).length_le
      have positive := List.length_pos_iff.mpr here
      omega

end Spells

/-- The text has no character to spare, so whatever the scan makes of it besides the tokens shows. -/
theorem spells_glued_iff {ts : List Token} (wellformed : ∀ t ∈ ts, Wellformed t) :
    Spells (segments (glued ts)) ts ↔ segments (glued ts) = ts.map segmentOf := by
  constructor
  · intro h
    refine h.eq_map (fun s hs => text_ne_nil_of_mem hs) ?_
    rw [texts_segments]
  · intro h
    rw [h]
    exact spells_map wellformed

/-- Lexemes can be written without anything between them just if none of them runs into the next. -/
theorem scan_glued_iff (ts : List Token) (produced : ∀ t ∈ ts, Produced t) :
    Yields (String.join (ts.map Token.lexeme)) ts ↔ ¬ Clashes ts := by
  have wellformed : ∀ t ∈ ts, Wellformed t := fun t ht => (produced t ht).wellformed
  have text : (String.join (ts.map Token.lexeme)).toList = glued ts := by
    rw [String.toList_join, List.flatMap_map]
    rfl
  rw [yields_iff, text, spells_glued_iff wellformed, segments_glued_iff, endInTurn_iff wellformed]

theorem scan_glued_fraction :
    (∀ t ∈ [tokenOf .number ['1'] 1, tokenOf .dot ['.'] 1, tokenOf .number ['5'] 2], Produced t)
      ∧ ¬ Yields "1.5" [tokenOf .number ['1'] 1, tokenOf .dot ['.'] 1, tokenOf .number ['5'] 2] := by
  have cut : segments "1.x".toList
      = [.lexeme .number ['1'], .lexeme .dot ['.'], .lexeme .identifier ['x']] := by decide +kernel
  have cut' : segments "\n5@".toList
      = [.blank '\n', .lexeme .number ['5'], .foreign '@'] := by decide +kernel
  have produced : ∀ t ∈ [tokenOf .number ['1'] 1, tokenOf .dot ['.'] 1, tokenOf .number ['5'] 2],
      Produced t := by
    refine List.forall_mem_cons.mpr ⟨produced_of_cut cut List.mem_cons_self, ?_⟩
    refine List.forall_mem_cons.mpr ⟨?_, List.forall_mem_singleton.mpr ?_⟩
    · exact produced_of_cut cut (List.mem_cons_of_mem _ List.mem_cons_self)
    · exact produced_of_cut cut' List.mem_cons_self
  have clash : Clashes [tokenOf .number ['1'] 1, tokenOf .dot ['.'] 1, tokenOf .number ['5'] 2] :=
    .here (.point rfl (by decide) rfl rfl)
  exact ⟨produced, fun same => (scan_glued_iff _ produced).mp same clash⟩

end Lox.Lexical
