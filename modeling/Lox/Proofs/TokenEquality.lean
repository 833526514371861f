import Lox.Proofs.Glueing
import Lox.Proofs.Listing

/-!
# Equality of scanned tokens

Equality of tokens compares kinds and values as well, and values that are numbers by IEEE 754.  For
tokens of scans that adds nothing: whatever stands around a lexeme, it has one kind and one value, only
the mark of the end has an empty lexeme, and no value is NaN.
-/

namespace Lox

/-! ### Equality of values -/

namespace Literal

theorem text_beq_text (s t : String) : (text s == text t) = (s == t) := rfl

theorem number_beq_number (x y : Binary64) : (number x == number y) = (x == y) := rfl

end Literal

theorem Token.beq_iff {a b : Token} :
    (a == b) = true
      ↔ a.kind = b.kind ∧ a.lexeme = b.lexeme ∧ (a.literal == b.literal) = true ∧ a.line = b.line := by
  show a.equal b = true ↔ _
  simp only [equal, Bool.and_eq_true, beq_iff_eq, and_assoc]

namespace Lexical

/-! ### The lexeme decides -/

/-- A lexeme is cut off from a source of its own in one way only. -/
theorem IsLexeme.kind_unique {kind kind' : Kind} {characters : List Char}
    (h : IsLexeme kind characters) (h' : IsLexeme kind' characters) : kind = kind' := by
  have cut : segments (characters ++ []) = .lexeme kind characters :: segments [] :=
    segments_append (h.endsBefore (not_continues_nil kind characters))
  have cut' : segments (characters ++ []) = .lexeme kind' characters :: segments [] :=
    segments_append (h'.endsBefore (not_continues_nil kind' characters))
  exact (Segment.lexeme.inj (List.cons.inj (cut.symm.trans cut')).1).1

theorem isNaN_literalOf {kind : Kind} {characters : List Char} {x : Binary64}
    (h : literalOf kind characters = some (.number x)) : x.isNaN = false := by
  unfold literalOf at h
  split at h
  · have text := Option.some.inj h
    contradiction
  · obtain rfl := Literal.number.inj (Option.some.inj h)
    exact Decimal.isNaN_round _
  · contradiction

end Lexical

namespace Listable

open Lexical

variable {a b : Token}

theorem isNaN_literal (h : Listable a) {x : Binary64} (carries : a.literal = some (.number x)) :
    x.isNaN = false := by
  cases h with
  | endOfSource line => contradiction
  | lexeme h =>
    rw [h.literal] at carries
    exact isNaN_literalOf carries

theorem literal_beq_self (h : Listable a) : (a.literal == a.literal) = true := by
  cases carries : a.literal with
  | none => rfl
  | some value =>
    show (value == value) = true
    cases value with
    | text s => rw [Literal.text_beq_text, beq_self_eq_true]
    | number x => rw [Literal.number_beq_number, Binary64.beq_self, h.isNaN_literal carries]; rfl

theorem content_of_lexeme (ha : Listable a) (hb : Listable b) (same : a.lexeme = b.lexeme) :
    a.content = b.content := by
  have filled {t : Token} (h : Wellformed t) : t.lexeme ≠ "" := by
    intro empty
    exact h.isLexeme.ne_nil (by rw [empty]; rfl)
  cases ha with
  | endOfSource line =>
    cases hb with
    | endOfSource line' => rfl
    | lexeme h' => exact absurd same.symm (filled h')
  | lexeme h =>
    cases hb with
    | endOfSource line' => exact absurd same (filled h)
    | lexeme h' =>
      have kind : a.kind = b.kind := h.isLexeme.kind_unique (same ▸ h'.isLexeme)
      rw [Token.content, Token.content, h.literal, h'.literal, kind, same]

theorem beq_iff (ha : Listable a) (hb : Listable b) :
    (a == b) = true ↔ a.lexeme = b.lexeme ∧ a.line = b.line := by
  rw [Token.beq_iff]
  constructor
  · intro h
    exact ⟨h.2.1, h.2.2.2⟩
  · intro h
    obtain ⟨lexeme, line⟩ := h
    obtain ⟨kind, _, literal⟩ :
        a.kind = b.kind ∧ a.lexeme = b.lexeme ∧ a.literal = b.literal := by
      simpa [Token.content] using ha.content_of_lexeme hb lexeme
    exact ⟨kind, lexeme, literal ▸ ha.literal_beq_self, line⟩

end Listable

namespace Lexical

/-- Two tokens of scans are equal just if their lexemes and lines are the same.  Hence each of them
equals itself, as no value is NaN; not all tokens do. -/
theorem scan_beq_iff :
    (∀ source source' : String, ∀ a ∈ (scan source).tokens, ∀ b ∈ (scan source').tokens,
        ((a == b) = true ↔ a.lexeme = b.lexeme ∧ a.line = b.line))
      ∧ (∀ source : String, ∀ t ∈ (scan source).tokens,
        (t == t) = true ∧ ∀ x, t.literal = some (.number x) → x.isNaN = false)
      ∧ ∃ t : Token, (t == t) = false := by
  refine ⟨?_, ?_, ?_⟩
  · intro source source' a ha b hb
    exact (Command.listable_of_mem_scan ha).beq_iff (Command.listable_of_mem_scan hb)
  · intro source t ht
    have listable := Command.listable_of_mem_scan ht
    exact ⟨(listable.beq_iff listable).mpr ⟨rfl, rfl⟩, fun _ => listable.isNaN_literal⟩
  · exact ⟨⟨.number, "NaN", some (.number ⟨0x7ff8000000000000⟩), 1⟩, by decide⟩

/-- A number after a string with a line end in it, and the same number before a point. -/
theorem scan_beq_iff_number :
    tokenOf .number ['1', '.', '5', '0'] 2 ∈ (scan "\"x\n\" 1.50").tokens
      ∧ tokenOf .number ['1', '.', '5', '0'] 2 ∈ (scan "\n1.50.").tokens
      ∧ (tokenOf .number ['1', '.', '5', '0'] 2 == tokenOf .number ['1', '.', '5', '0'] 2)
        = true := by
  have inside : tokenOf .number ['1', '.', '5', '0'] 2 ∈ (scan "\"x\n\" 1.50").tokens := by
    have cut : segments "\"x\n\" 1.50".toList = [.lexeme .string ['"', 'x', '\n', '"'],
        .blank ' ', .lexeme .number ['1', '.', '5', '0']] := by decide +kernel
    rw [scan_tokens, cut]
    exact List.mem_append_left _ (List.mem_cons_of_mem _ List.mem_cons_self)
  have before : tokenOf .number ['1', '.', '5', '0'] 2 ∈ (scan "\n1.50.").tokens := by
    have cut : segments "\n1.50.".toList
        = [.blank '\n', .lexeme .number ['1', '.', '5', '0'], .lexeme .dot ['.']] := by
      decide +kernel
    rw [scan_tokens, cut]
    exact List.mem_append_left _ List.mem_cons_self
  exact ⟨inside, before, (scan_beq_iff.1 _ _ _ inside _ before).mpr ⟨rfl, rfl⟩⟩

end Lexical

end Lox
