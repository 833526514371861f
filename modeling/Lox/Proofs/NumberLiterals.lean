import Lox.Proofs.CorrectRounding
import Lox.Proofs.MaximalMunch
import Lox.Proofs.Rereading

/-!
# Numbers are rounded correctly

A numeral has an exact value, in which each digit counts with the weight of its place.  The value that a
scan gives to a number token is the nearest number to it (`scan_number_rounded`), however long the
numeral is.  So numerals of equal value are given the same number, and a greater one never a lesser.
-/

namespace Lox

/-! ### The exact value of a numeral -/

namespace Numeral

def digit (c : Char) : ℕ := c.toNat - '0'.toNat

def whole : List Char → ℕ
  | [] => 0
  | d :: ds => digit d * 10 ^ ds.length + whole ds

def fraction : List Char → ℚ
  | [] => 0
  | d :: ds => (digit d + fraction ds) / 10

/-- The digits before the point, if there is one, and those after it. -/
def value (text : List Char) : ℚ :=
  whole (text.takeWhile (· != '.')) + fraction ((text.dropWhile (· != '.')).drop 1)

theorem ofDigitChars_eq (digits : List Char) (initial : ℕ) :
    Nat.ofDigitChars 10 digits initial = initial * 10 ^ digits.length + whole digits := by
  induction digits generalizing initial with
  | nil => simp [whole]
  | cons d ds ih =>
    rw [Nat.ofDigitChars_cons, ih, whole, List.length_cons]
    show (10 * initial + digit d) * _ + _ = _
    ring

theorem whole_append (before after : List Char) :
    whole (before ++ after) = whole before * 10 ^ after.length + whole after := by
  induction before with
  | nil => simp [whole]
  | cons d ds ih =>
    rw [List.cons_append, whole, whole, ih, List.length_append, pow_add]
    ring

theorem fraction_eq (digits : List Char) :
    fraction digits = whole digits / 10 ^ digits.length := by
  induction digits with
  | nil => simp [fraction, whole]
  | cons d ds ih =>
    have power : (10 : ℚ) ^ ds.length ≠ 0 := pow_ne_zero _ (by norm_num)
    rw [fraction, whole, ih, List.length_cons, pow_succ]
    push_cast
    field_simp

end Numeral

namespace Decimal

theorem value_ofDigits (before after : List Char) :
    (ofDigits before after).value = Numeral.whole before + Numeral.fraction after := by
  have power : (10 : ℚ) ^ after.length ≠ 0 := pow_ne_zero _ (by norm_num)
  unfold ofDigits value
  rw [Numeral.ofDigitChars_eq, Nat.zero_mul, Nat.zero_add, Numeral.whole_append, Numeral.fraction_eq,
    zpow_neg, zpow_natCast]
  push_cast
  field_simp

theorem value_ofText (text : List Char) : (ofText text).value = Numeral.value text :=
  value_ofDigits _ _

end Decimal

namespace Lexical

open Binary64 (Rounded AtMost ofMagnitude)

/-- The lexeme of a number token is a numeral, and its value is the one that was rounded. -/
theorem content_of_number {source : String} {t : Token} (h : t ∈ (scan source).tokens)
    (kind : t.kind = .number) :
    t.lexeme.toList ∈ Pattern.number.language
      ∧ t.literal = some (.number (Decimal.ofText t.lexeme.toList).round) := by
  have produced : Produced t := ⟨by rw [kind]; nofun, source, h⟩
  have literal := produced.wellformed.literal
  obtain ⟨rest, ends⟩ := produced.wellformed.isLexeme
  have fits := mem_ofKind ends
  rw [kind] at fits literal
  exact ⟨fits, literal⟩

/-- The value of a number token is the nearest one to the exact value of its lexeme: zero up to one half
of the least subnormal number, and infinity from halfway beyond the greatest finite number on.  Only the
exact value matters, and the number follows it in order. -/
theorem scan_number_rounded :
    (∀ source : String, ∀ t ∈ (scan source).tokens, t.kind = .number →
        t.lexeme.toList ∈ Pattern.number.language
          ∧ ∃ x, t.literal = some (.number x) ∧ Rounded (Numeral.value t.lexeme.toList) x
            ∧ (x = ofMagnitude 0 ↔ Numeral.value t.lexeme.toList ≤ 1 / 2 ^ 1075))
      ∧ ∀ source source' : String, ∀ t ∈ (scan source).tokens, ∀ t' ∈ (scan source').tokens,
        ∀ x x', t.kind = .number → t'.kind = .number →
          t.literal = some (.number x) → t'.literal = some (.number x') →
          (Numeral.value t.lexeme.toList = Numeral.value t'.lexeme.toList → x = x')
            ∧ (Numeral.value t.lexeme.toList ≤ Numeral.value t'.lexeme.toList → AtMost x x') := by
  simp only [← Decimal.value_ofText]
  constructor
  · intro source t ht kind
    obtain ⟨fits, literal⟩ := content_of_number ht kind
    exact ⟨fits, _, literal, Decimal.rounded_round _, Decimal.round_eq_zero_iff _⟩
  · intro source source' t ht t' ht' x x' kind kind' literal literal'
    obtain ⟨-, same⟩ := content_of_number ht kind
    obtain ⟨-, same'⟩ := content_of_number ht' kind'
    obtain rfl : _ = x := Literal.number.inj (Option.some.inj (same.symm.trans literal))
    obtain rfl : _ = x' := Literal.number.inj (Option.some.inj (same'.symm.trans literal'))
    exact ⟨Decimal.round_congr, Decimal.round_mono⟩

/-- A numeral halfway between two numbers, which goes to the even one, and the same value written in
another way. -/
theorem scan_number_rounded_halfway :
    (scan "9007199254740993\n09007199254740993.00").tokens
        = [tokenOf .number "9007199254740993".toList 1,
          tokenOf .number "09007199254740993.00".toList 2, Token.endOfSource 2]
      ∧ literalOf .number "9007199254740993".toList = some (.number ⟨0x4340000000000000⟩)
      ∧ Rounded 9007199254740993 ⟨0x4340000000000000⟩
      ∧ literalOf .number "09007199254740993.00".toList
          = some (.number ⟨0x4340000000000000⟩) := by
  have cut : segments "9007199254740993\n09007199254740993.00".toList
      = [.lexeme .number "9007199254740993".toList, .blank '\n',
        .lexeme .number "09007199254740993.00".toList] := by decide +kernel
  have tokens : (scan "9007199254740993\n09007199254740993.00").tokens
      = [tokenOf .number "9007199254740993".toList 1,
        tokenOf .number "09007199254740993.00".toList 2, Token.endOfSource 2] := by
    rw [scan_tokens, cut]
    rfl
  have first : tokenOf .number "9007199254740993".toList 1
      ∈ (scan "9007199254740993\n09007199254740993.00").tokens := by
    rw [tokens]
    exact List.mem_cons_self
  have second : tokenOf .number "09007199254740993.00".toList 2
      ∈ (scan "9007199254740993\n09007199254740993.00").tokens := by
    rw [tokens]
    exact List.mem_cons_of_mem _ List.mem_cons_self
  have even : literalOf .number "9007199254740993".toList
      = some (.number ⟨0x4340000000000000⟩) := by
    have bits : (Decimal.ofText "9007199254740993".toList).round.bits = 0x4340000000000000 := by
      decide +kernel
    exact congrArg (fun bits => some (Literal.number ⟨bits⟩)) bits
  have exact : Numeral.value (tokenOf .number "9007199254740993".toList 1).lexeme.toList
      = 9007199254740993 := by decide +kernel
  have same : Numeral.value (tokenOf .number "09007199254740993.00".toList 2).lexeme.toList
      = 9007199254740993 := by decide +kernel
  obtain ⟨-, x, literal, rounded, -⟩ := scan_number_rounded.1 _ _ first rfl
  obtain ⟨-, x', literal', -, -⟩ := scan_number_rounded.1 _ _ second rfl
  have alike := (scan_number_rounded.2 _ _ _ first _ second x x' rfl rfl literal literal').1
  obtain rfl : _ = x := Literal.number.inj (Option.some.inj (even.symm.trans literal))
  refine ⟨tokens, even, exact ▸ rounded, ?_⟩
  rw [alike (exact.trans same.symm)]
  exact literal'

end Lexical

end Lox
