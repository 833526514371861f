import Lox.Lexical.Segment

/-!
# Where a segment ends

`EndsBefore` says of a segment and of the text after it that the segment is complete: it has the
form of its kind and the text does not continue it.  That is all there is to cutting up a source:
`first_eq_iff` cuts off exactly the segment that ends before the rest, and `source_induction` walks
over any source one such segment at a time.
-/

namespace Lox.Lexical

/-! ### Runs of characters -/

theorem takeWhile_run {p : Char → Bool} {run rest : List Char} (hrun : ∀ c ∈ run, p c)
    (hrest : ∀ c ∈ rest.head?, p c = false) : (run ++ rest).takeWhile p = run := by
  rw [List.takeWhile_append_of_pos hrun]
  cases rest with
  | nil => simp
  | cons c cs =>
    have stops : p c = false := hrest c rfl
    simp [stops]

theorem dropWhile_run {p : Char → Bool} {run rest : List Char} (hrun : ∀ c ∈ run, p c)
    (hrest : ∀ c ∈ rest.head?, p c = false) : (run ++ rest).dropWhile p = rest := by
  rw [List.dropWhile_append_of_pos hrun]
  cases rest with
  | nil => simp
  | cons c cs =>
    have stops : p c = false := hrest c rfl
    simp [stops]

theorem head?_dropWhile_run {p : Char → Bool} {cs : List Char} :
    ∀ c ∈ (cs.dropWhile p).head?, p c = false := by
  intro c hc
  have := List.head?_dropWhile_not p cs
  rw [hc] at this
  simpa using this

theorem notMem_takeWhile_bne (a : Char) (cs : List Char) : a ∉ cs.takeWhile (· != a) := by
  intro h
  have differs := List.all_eq_true.mp List.all_takeWhile a h
  simp at differs

theorem bne_of_notMem {a : Char} {cs : List Char} (h : a ∉ cs) : ∀ c ∈ cs, (c != a) = true := by
  intro c hc
  have differs : c ≠ a := fun same => h (same ▸ hc)
  simpa using differs

/-! ### Complete segments -/

namespace Segment

/-- The segment has the form of its kind, and that form does not go on into `rest`. -/
inductive EndsBefore : Segment → List Char → Prop
  | blank {c rest} (hc : isBlank c) : EndsBefore (.blank c) rest
  | comment {body rest} (hbody : '\n' ∉ body) (hrest : ∀ c ∈ rest.head?, c = '\n') :
      EndsBefore (.comment body) rest
  | punctuator {c kind rest} (hc : classify c = .punctuator kind) :
      EndsBefore (.lexeme kind [c]) rest
  | alone {c kind other rest} (hc : classify c = .operator kind other)
      (hrest : rest.head? ≠ some '=') : EndsBefore (.lexeme kind [c]) rest
  | withEqual {c kind other rest} (hc : classify c = .operator other kind) :
      EndsBefore (.lexeme kind [c, '=']) rest
  | slash {rest} (hrest : rest.head? ≠ some '/') : EndsBefore (.lexeme .slash ['/']) rest
  | word {c cs rest} (hc : isLetter c) (hcs : ∀ d ∈ cs, isWordChar d)
      (hrest : ∀ d ∈ rest.head?, isWordChar d = false) :
      EndsBefore (.lexeme (Kind.ofWord (String.ofList (c :: cs))) (c :: cs)) rest
  | whole {c cs rest} (hc : c.isDigit) (hcs : ∀ d ∈ cs, d.isDigit)
      (hrest : ∀ d ∈ rest.head?, d.isDigit = false)
      (hpoint : ∀ d tail, rest = '.' :: d :: tail → d.isDigit = false) :
      EndsBefore (.lexeme .number (c :: cs)) rest
  | decimal {c cs d ds rest} (hc : c.isDigit) (hcs : ∀ e ∈ cs, e.isDigit) (hd : d.isDigit)
      (hds : ∀ e ∈ ds, e.isDigit) (hrest : ∀ e ∈ rest.head?, e.isDigit = false) :
      EndsBefore (.lexeme .number (c :: cs ++ '.' :: d :: ds)) rest
  | string {body rest} (hbody : '"' ∉ body) :
      EndsBefore (.lexeme .string ('"' :: body ++ ['"'])) rest
  | foreign {c rest} (hc : classify c = .foreign) : EndsBefore (.foreign c) rest
  | openString {body} (hbody : '"' ∉ body) : EndsBefore (.openString body) []

end Segment

/-! ### The first segment ends where it is cut off -/

theorem splitFraction_whole {rest : List Char}
    (hpoint : ∀ d tail, rest = '.' :: d :: tail → d.isDigit = false) :
    splitFraction rest = ([], rest) := by
  unfold splitFraction
  split
  · next d cs =>
    have stops := hpoint d cs rfl
    simp [stops]
  · rfl

theorem splitFraction_decimal {d : Char} {ds rest : List Char} (hd : d.isDigit)
    (hds : ∀ e ∈ ds, e.isDigit) (hrest : ∀ e ∈ rest.head?, e.isDigit = false) :
    splitFraction ('.' :: d :: (ds ++ rest)) = ('.' :: d :: ds, rest) := by
  rw [splitFraction, if_pos hd, takeWhile_run hds hrest, dropWhile_run hds hrest]

theorem splitFraction_cases (cs : List Char) (hcs : ∀ d ∈ cs.head?, d.isDigit = false) :
    (splitFraction cs = ([], cs) ∧ ∀ d tail, cs = '.' :: d :: tail → d.isDigit = false)
      ∨ ∃ d ds rest, d.isDigit ∧ (∀ e ∈ ds, e.isDigit) ∧ (∀ e ∈ rest.head?, e.isDigit = false)
        ∧ splitFraction cs = ('.' :: d :: ds, rest) := by
  unfold splitFraction
  split
  · next d tail =>
    by_cases hd : d.isDigit
    · refine .inr ⟨d, tail.takeWhile Char.isDigit, tail.dropWhile Char.isDigit, hd,
        ?_, head?_dropWhile_run, by rw [if_pos hd]⟩
      intro e he
      exact List.all_eq_true.mp List.all_takeWhile e he
    · refine .inl ⟨by rw [if_neg hd], ?_⟩
      intro e cs he
      cases he
      simpa using hd
  · next h =>
    refine .inl ⟨rfl, ?_⟩
    intro d tail hcs
    exact absurd hcs (h d tail)


open Segment (EndsBefore)

theorem firstNumber_endsBefore {c : Char} {cs : List Char} (hc : c.isDigit) :
    (firstNumber c cs).1.EndsBefore (firstNumber c cs).2 := by
  have digits : ∀ d ∈ cs.takeWhile Char.isDigit, d.isDigit :=
    List.all_eq_true.mp List.all_takeWhile
  rcases splitFraction_cases (cs.dropWhile Char.isDigit) head?_dropWhile_run with
    ⟨split, hpoint⟩ | ⟨d, ds, rest, hd, hds, hrest, split⟩
  · simp only [firstNumber, split, List.append_nil]
    exact .whole hc digits head?_dropWhile_run hpoint
  · simp only [firstNumber, split]
    exact .decimal hc digits hd hds hrest

theorem firstString_endsBefore (cs : List Char) :
    (firstString cs).1.EndsBefore (firstString cs).2 := by
  have body := notMem_takeWhile_bne '"' cs
  unfold firstString
  split
  · exact .openString body
  · next quote rest h =>
    have closes : (quote != '"') = false := by
      have stops : ∀ c ∈ (cs.dropWhile (· != '"')).head?, (c != '"') = false :=
        head?_dropWhile_run
      rw [h] at stops
      exact stops quote rfl
    obtain rfl : quote = '"' := by simpa using closes
    exact .string body

theorem firstSlash_endsBefore (cs : List Char) :
    (firstSlash cs).1.EndsBefore (firstSlash cs).2 := by
  unfold firstSlash
  split
  · next cs =>
    refine .comment (notMem_takeWhile_bne '\n' cs) ?_
    intro c hc
    simpa using head?_dropWhile_run c hc
  · next h =>
    refine .slash ?_
    intro starts
    cases cs with
    | nil => contradiction
    | cons c cs =>
      obtain rfl : c = '/' := by simpa using starts
      exact h cs rfl

theorem firstOperator_endsBefore {c : Char} {alone withEqual : Kind}
    (hc : classify c = .operator alone withEqual) (cs : List Char) :
    (firstOperator alone withEqual c cs).1.EndsBefore (firstOperator alone withEqual c cs).2 := by
  unfold firstOperator
  split
  · exact .withEqual hc
  · next h =>
    refine .alone hc ?_
    intro starts
    cases cs with
    | nil => contradiction
    | cons c cs =>
      obtain rfl : c = '=' := by simpa using starts
      exact h cs rfl

theorem first_endsBefore (c : Char) (cs : List Char) :
    (first c cs).1.EndsBefore (first c cs).2 := by
  unfold first
  split
  · next h => exact .blank (isBlank_of_classify h)
  · next h => exact firstNumber_endsBefore (isDigit_of_classify h)
  · next h =>
    refine .word (isLetter_of_classify h) ?_ head?_dropWhile_run
    exact List.all_eq_true.mp List.all_takeWhile
  · exact firstString_endsBefore cs
  · exact firstSlash_endsBefore cs
  · next h => exact firstOperator_endsBefore h cs
  · next h => exact .punctuator h
  · next h => exact .foreign h

/-! ### A complete segment is cut off as it is -/

theorem firstNumber_whole {c : Char} {cs rest : List Char} (hcs : ∀ d ∈ cs, d.isDigit)
    (hrest : ∀ d ∈ rest.head?, d.isDigit = false)
    (hpoint : ∀ d tail, rest = '.' :: d :: tail → d.isDigit = false) :
    firstNumber c (cs ++ rest) = (.lexeme .number (c :: cs), rest) := by
  simp only [firstNumber, takeWhile_run hcs hrest, dropWhile_run hcs hrest,
    splitFraction_whole hpoint, List.append_nil]

theorem firstNumber_decimal {c d : Char} {cs ds rest : List Char} (hcs : ∀ e ∈ cs, e.isDigit)
    (hd : d.isDigit) (hds : ∀ e ∈ ds, e.isDigit) (hrest : ∀ e ∈ rest.head?, e.isDigit = false) :
    firstNumber c (cs ++ '.' :: d :: (ds ++ rest))
      = (.lexeme .number (c :: cs ++ '.' :: d :: ds), rest) := by
  have stops : ∀ e ∈ ('.' :: d :: (ds ++ rest)).head?, e.isDigit = false := by
    intro e he
    cases he
    rfl
  simp only [firstNumber, takeWhile_run hcs stops, dropWhile_run hcs stops,
    splitFraction_decimal hd hds hrest]

theorem firstString_closed {body : List Char} (hbody : '"' ∉ body) (rest : List Char) :
    firstString (body ++ '"' :: rest) = (.lexeme .string ('"' :: body ++ ['"']), rest) := by
  have stops : ∀ c ∈ ('"' :: rest).head?, (c != '"') = false := by
    intro c hc
    cases hc
    rfl
  simp only [firstString, takeWhile_run (bne_of_notMem hbody) stops,
    dropWhile_run (bne_of_notMem hbody) stops]

theorem firstString_open {body : List Char} (hbody : '"' ∉ body) :
    firstString body = (.openString body, []) := by
  have none : ∀ c ∈ ([] : List Char).head?, (c != '"') = false := by simp
  have taken := takeWhile_run (bne_of_notMem hbody) none
  have dropped := dropWhile_run (bne_of_notMem hbody) none
  rw [List.append_nil] at taken dropped
  simp only [firstString, taken, dropped]

theorem firstSlash_comment {body rest : List Char} (hbody : '\n' ∉ body)
    (hrest : ∀ c ∈ rest.head?, c = '\n') :
    firstSlash ('/' :: (body ++ rest)) = (.comment body, rest) := by
  have stops : ∀ c ∈ rest.head?, (c != '\n') = false := by
    intro c hc
    rw [hrest c hc]
    rfl
  simp only [firstSlash, takeWhile_run (bne_of_notMem hbody) stops,
    dropWhile_run (bne_of_notMem hbody) stops]

theorem firstSlash_alone {rest : List Char} (hrest : rest.head? ≠ some '/') :
    firstSlash rest = (.lexeme .slash ['/'], rest) := by
  unfold firstSlash
  split
  · exact absurd rfl hrest
  · rfl

theorem firstOperator_alone (alone withEqual : Kind) (c : Char) {rest : List Char}
    (hrest : rest.head? ≠ some '=') :
    firstOperator alone withEqual c rest = (.lexeme alone [c], rest) := by
  unfold firstOperator
  split
  · exact absurd rfl hrest
  · rfl

theorem firstWord_run {c : Char} {cs rest : List Char} (hcs : ∀ d ∈ cs, isWordChar d)
    (hrest : ∀ d ∈ rest.head?, isWordChar d = false) :
    firstWord c (cs ++ rest)
      = (.lexeme (Kind.ofWord (String.ofList (c :: cs))) (c :: cs), rest) := by
  simp only [firstWord, takeWhile_run hcs hrest, dropWhile_run hcs hrest]

theorem first_of_endsBefore {seg : Segment} {rest cs : List Char} {c : Char}
    (h : seg.EndsBefore rest) (hcs : c :: cs = seg.text ++ rest) : first c cs = (seg, rest) := by
  cases h with
  | blank hc =>
    obtain ⟨rfl, rfl⟩ := List.cons.inj hcs
    simp only [first, classify_of_isBlank hc]
  | comment hbody hrest =>
    obtain ⟨rfl, rfl⟩ := List.cons.inj hcs
    exact firstSlash_comment hbody hrest
  | punctuator hc =>
    obtain ⟨rfl, rfl⟩ := List.cons.inj hcs
    simp only [first, hc]
  | alone hc hrest =>
    obtain ⟨rfl, rfl⟩ := List.cons.inj hcs
    simp only [first, hc]
    exact firstOperator_alone _ _ _ hrest
  | withEqual hc =>
    obtain ⟨rfl, rfl⟩ := List.cons.inj hcs
    simp only [first, hc]
    rfl
  | slash hrest =>
    obtain ⟨rfl, rfl⟩ := List.cons.inj hcs
    exact firstSlash_alone hrest
  | word hc hword hrest =>
    obtain ⟨rfl, rfl⟩ := List.cons.inj hcs
    simp only [first, classify_of_isLetter hc]
    exact firstWord_run hword hrest
  | whole hc hdigits hrest hpoint =>
    obtain ⟨rfl, rfl⟩ := List.cons.inj hcs
    simp only [first, classify_of_isDigit hc]
    exact firstNumber_whole hdigits hrest hpoint
  | decimal hc hdigits hd hds hrest =>
    simp only [Segment.text, List.cons_append, List.append_assoc] at hcs
    obtain ⟨rfl, rfl⟩ := List.cons.inj hcs
    simp only [first, classify_of_isDigit hc]
    exact firstNumber_decimal hdigits hd hds hrest
  | string hbody =>
    simp only [Segment.text, List.cons_append, List.append_assoc] at hcs
    obtain ⟨rfl, rfl⟩ := List.cons.inj hcs
    exact firstString_closed hbody rest
  | foreign hc =>
    obtain ⟨rfl, rfl⟩ := List.cons.inj hcs
    simp only [first, hc]
  | openString hbody =>
    simp only [Segment.text, List.append_nil] at hcs
    obtain ⟨rfl, rfl⟩ := List.cons.inj hcs
    exact firstString_open hbody

theorem first_eq_iff {seg : Segment} {rest cs : List Char} {c : Char} :
    first c cs = (seg, rest) ↔ seg.text ++ rest = c :: cs ∧ seg.EndsBefore rest := by
  constructor
  · intro h
    have whole := text_first c cs
    have ends := first_endsBefore c cs
    rw [h] at whole ends
    exact ⟨whole, ends⟩
  · intro h
    exact first_of_endsBefore h.2 h.1.symm

/-! ### Whole sources -/

namespace Segment.EndsBefore

theorem text_ne_nil {seg : Segment} {rest : List Char} (h : seg.EndsBefore rest) :
    seg.text ≠ [] := by
  cases h <;> simp [text]

end Segment.EndsBefore

theorem segments_append {seg : Segment} {rest : List Char} (h : seg.EndsBefore rest) :
    segments (seg.text ++ rest) = seg :: segments rest := by
  obtain ⟨c, cs, hcs⟩ := List.exists_cons_of_ne_nil h.text_ne_nil
  have cut : first c (cs ++ rest) = (seg, rest) := first_of_endsBefore h (by rw [hcs]; rfl)
  rw [hcs, List.cons_append, segments_cons, cut]

theorem exists_cut {cs : List Char} (h : cs ≠ []) :
    ∃ (seg : Segment) (rest : List Char), seg.EndsBefore rest ∧ cs = seg.text ++ rest := by
  obtain ⟨c, cs, rfl⟩ := List.exists_cons_of_ne_nil h
  exact ⟨_, _, first_endsBefore c cs, (text_first c cs).symm⟩

theorem source_induction {P : List Char → Prop} (nil : P [])
    (cut : ∀ (seg : Segment) (rest : List Char), seg.EndsBefore rest → P rest → P (seg.text ++ rest))
    (cs : List Char) : P cs := by
  match cs with
  | [] => exact nil
  | c :: cs =>
    have rest := source_induction nil cut (first c cs).2
    have whole := cut _ _ (first_endsBefore c cs) rest
    rwa [text_first] at whole
termination_by cs.length
decreasing_by exact length_first_lt c cs

theorem exists_endsBefore_of_mem {seg : Segment} {cs : List Char} (h : seg ∈ segments cs) :
    ∃ rest, seg.EndsBefore rest := by
  induction cs using source_induction with
  | nil =>
    rw [segments_nil] at h
    contradiction
  | cut first rest ends ih =>
    rw [segments_append ends] at h
    rcases List.mem_cons.mp h with rfl | later
    · exact ⟨rest, ends⟩
    · exact ih later

theorem text_ne_nil_of_mem {s : Segment} {cs : List Char} (h : s ∈ segments cs) : s.text ≠ [] := by
  obtain ⟨_, ends⟩ := exists_endsBefore_of_mem h
  exact ends.text_ne_nil

end Lox.Lexical
