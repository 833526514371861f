import Lox.Lexical.CharClass

/-!
# Segments of a source

A source falls into segments, from left to right and without gap or overlap: blanks, comments,
lexemes, characters that begin none of these, and at most one string that is never closed.  Each
segment takes as much of the source as its form allows (`match_next`, `string`, `number`, `identifier`).
`first` cuts off the first segment and `segments` all of them; `text_first` and `texts_segments` say
that no character is lost.
-/

namespace Lox.Lexical

inductive Segment where
  | blank (c : Char)
  /-- What follows the two slashes. -/
  | comment (body : List Char)
  | lexeme (kind : Kind) (characters : List Char)
  | foreign (c : Char)
  /-- What follows the opening quote. -/
  | openString (body : List Char)
  deriving DecidableEq, Repr

namespace Segment

def text : Segment → List Char
  | blank c => [c]
  | comment body => '/' :: '/' :: body
  | lexeme _ characters => characters
  | foreign c => [c]
  | openString body => '"' :: body

end Segment

/-! ### Cutting off one segment -/

def firstWord (c : Char) (cs : List Char) : Segment × List Char :=
  let word := c :: cs.takeWhile isWordChar
  (.lexeme (Kind.ofWord (String.ofList word)) word, cs.dropWhile isWordChar)

/-- Splits off a point with the digits after it, if at least one digit follows the point. -/
def splitFraction : List Char → List Char × List Char
  | '.' :: d :: cs =>
    if d.isDigit then ('.' :: d :: cs.takeWhile Char.isDigit, cs.dropWhile Char.isDigit)
    else ([], '.' :: d :: cs)
  | cs => ([], cs)

def firstNumber (c : Char) (cs : List Char) : Segment × List Char :=
  let fraction := splitFraction (cs.dropWhile Char.isDigit)
  (.lexeme .number (c :: cs.takeWhile Char.isDigit ++ fraction.1), fraction.2)

/-- A string after its opening quote: up to the next quote, or to the end if there is none. -/
def firstString (cs : List Char) : Segment × List Char :=
  let body := cs.takeWhile (· != '"')
  match cs.dropWhile (· != '"') with
  | [] => (.openString body, [])
  | quote :: rest => (.lexeme .string ('"' :: body ++ [quote]), rest)

/-- After a slash: a second slash makes it a comment, which runs to the end of the line. -/
def firstSlash : List Char → Segment × List Char
  | '/' :: cs => (.comment (cs.takeWhile (· != '\n')), cs.dropWhile (· != '\n'))
  | cs => (.lexeme .slash ['/'], cs)

def firstOperator (alone withEqual : Kind) (c : Char) : List Char → Segment × List Char
  | '=' :: cs => (.lexeme withEqual [c, '='], cs)
  | cs => (.lexeme alone [c], cs)

def first (c : Char) (cs : List Char) : Segment × List Char :=
  match classify c with
  | .blank => (.blank c, cs)
  | .digit => firstNumber c cs
  | .letter => firstWord c cs
  | .quote => firstString cs
  | .slash => firstSlash cs
  | .operator alone withEqual => firstOperator alone withEqual c cs
  | .punctuator kind => (.lexeme kind [c], cs)
  | .foreign => (.foreign c, cs)

/-! ### Nothing is lost -/

theorem text_firstWord (c : Char) (cs : List Char) :
    (firstWord c cs).1.text ++ (firstWord c cs).2 = c :: cs := by
  simp [firstWord, Segment.text]

theorem append_splitFraction (cs : List Char) :
    (splitFraction cs).1 ++ (splitFraction cs).2 = cs := by
  unfold splitFraction
  split
  · split <;> simp
  · rfl

theorem text_firstNumber (c : Char) (cs : List Char) :
    (firstNumber c cs).1.text ++ (firstNumber c cs).2 = c :: cs := by
  simp [firstNumber, Segment.text, append_splitFraction]

theorem text_firstString (cs : List Char) :
    (firstString cs).1.text ++ (firstString cs).2 = '"' :: cs := by
  have parts := List.takeWhile_append_dropWhile (p := (· != '"')) (l := cs)
  unfold firstString
  split
  · next h =>
    rw [h] at parts
    simpa [Segment.text] using parts
  · next h =>
    rw [h] at parts
    simpa [Segment.text] using parts

theorem text_firstSlash (cs : List Char) :
    (firstSlash cs).1.text ++ (firstSlash cs).2 = '/' :: cs := by
  unfold firstSlash
  split <;> simp [Segment.text]

theorem text_firstOperator (alone withEqual : Kind) (c : Char) (cs : List Char) :
    (firstOperator alone withEqual c cs).1.text ++ (firstOperator alone withEqual c cs).2
      = c :: cs := by
  unfold firstOperator
  split <;> simp [Segment.text]

theorem eq_quote_of_classify {c : Char} (h : classify c = .quote) : c = '"' := by
  unfold classify at h
  split at h <;> try contradiction
  split at h <;> try contradiction
  split at h <;> try contradiction
  split at h <;> first | contradiction | rfl

theorem eq_slash_of_classify {c : Char} (h : classify c = .slash) : c = '/' := by
  unfold classify at h
  split at h <;> try contradiction
  split at h <;> try contradiction
  split at h <;> try contradiction
  split at h <;> first | contradiction | rfl

/-- The first segment and what follows it are the whole source. -/
theorem text_first (c : Char) (cs : List Char) :
    (first c cs).1.text ++ (first c cs).2 = c :: cs := by
  unfold first
  split
  · rfl
  · exact text_firstNumber c cs
  · exact text_firstWord c cs
  · next h => rw [eq_quote_of_classify h, text_firstString]
  · next h => rw [eq_slash_of_classify h, text_firstSlash]
  · exact text_firstOperator _ _ c cs
  · rfl
  · rfl

theorem text_first_ne_nil (c : Char) (cs : List Char) : (first c cs).1.text ≠ [] := by
  unfold first
  split <;> simp only [firstWord, firstNumber, firstString, firstSlash, firstOperator] <;>
    (try split) <;> simp [Segment.text]

theorem length_first_lt (c : Char) (cs : List Char) :
    (first c cs).2.length < (c :: cs).length := by
  have whole := congrArg List.length (text_first c cs)
  have positive := List.length_pos_iff.mpr (text_first_ne_nil c cs)
  rw [List.length_append] at whole
  omega

/-! ### Cutting up a whole source -/

/-- The segments of a source after those already cut off, which are held last one first. -/
def segmentsAfter (done : List Segment) : List Char → List Segment
  | [] => done.reverse
  | c :: cs => segmentsAfter ((first c cs).1 :: done) (first c cs).2
termination_by cs => cs.length
decreasing_by exact length_first_lt c cs

def segments (cs : List Char) : List Segment := segmentsAfter [] cs

theorem segmentsAfter_append (done earlier : List Segment) (cs : List Char) :
    segmentsAfter (done ++ earlier) cs = earlier.reverse ++ segmentsAfter done cs := by
  fun_induction segmentsAfter done cs with
  | case1 done => simp [segmentsAfter]
  | case2 done c cs ih =>
    rw [segmentsAfter]
    exact ih

@[simp] theorem segments_nil : segments [] = [] := by
  rw [segments, segmentsAfter, List.reverse_nil]

@[simp] theorem segments_cons (c : Char) (cs : List Char) :
    segments (c :: cs) = (first c cs).1 :: segments (first c cs).2 := by
  rw [segments, segmentsAfter]
  exact segmentsAfter_append [] [(first c cs).1] (first c cs).2

/-- The segments make up the source. -/
theorem texts_segments (cs : List Char) : (segments cs).flatMap Segment.text = cs := by
  match cs with
  | [] => simp
  | c :: cs =>
    have rest := texts_segments (first c cs).2
    rw [segments_cons, List.flatMap_cons, rest, text_first]
termination_by cs.length
decreasing_by exact length_first_lt c cs

end Lox.Lexical
