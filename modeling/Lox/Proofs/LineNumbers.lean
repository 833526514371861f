import Lox.Proofs.MaximalMunch

/-!
# The lines of tokens and reports

A place is a segment together with the offset at which it begins.  The line counter of a scan is set
against a count that knows nothing of it: the line ends in the source before an offset.
-/

namespace Lox.Lexical

/-! ### Places -/

structure Place where
  start : Nat
  segment : Segment
  deriving DecidableEq, Repr

namespace Place

def stop (p : Place) : Nat := p.start + p.segment.text.length

def isLexeme (p : Place) : Bool :=
  match p.segment with
  | .lexeme _ _ => true
  | _ => false

def isFault (p : Place) : Bool :=
  match p.segment with
  | .foreign _ | .openString _ => true
  | _ => false

end Place

def placesFrom (offset : Nat) : List Segment → List Place
  | [] => []
  | s :: rest => ⟨offset, s⟩ :: placesFrom (offset + s.text.length) rest

/-- The segments of a source, each with its offset. -/
def places (source : String) : List Place := placesFrom 0 (segments source.toList)

def newlinesBefore (source : String) (offset : Nat) : Nat :=
  newlines (source.toList.take offset)

/-! ### What a token and a report say of their place -/

/-- The token has the characters of the place and the line on which the place ends. -/
structure Stands (source : String) (t : Token) (p : Place) : Prop where
  lexeme : t.lexeme.toList = source.toList.extract p.start p.stop
  line : t.line.toNat = 1 + newlinesBefore source p.stop

section Count

variable {source : String} {before : List Char} {seg : Segment} {rest : List Char}

theorem add_lineEnds (before : List Char) (seg : Segment) :
    1 + UInt32.ofNat (newlines before) + seg.lineEnds
      = 1 + UInt32.ofNat (newlines (before ++ seg.text)) := by
  have here : seg.lineEnds = UInt32.ofNat (newlines seg.text) := rfl
  rw [here, UInt32.add_assoc, ← UInt32.ofNat_add, newlines_append]

end Count

/-! ### All tokens and reports -/

end Lox.Lexical
