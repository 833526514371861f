import Lox.Proofs.Glueing
import Lox.Proofs.Listing
import Lox.Proofs.NumberLiterals

/-!
# Printed numbers are read back

A number that is printed in plain form is scanned back as it was: `shortest` takes a decimal that is
rounded to the number, and the plain form of a decimal is a numeral with its value.  The plain form
serves zero and what lies from 10⁻⁴ up to 10¹⁶; whatever else is printed holds a letter, so it is no
numeral.
-/

namespace Lox

/-! ### Numerals with a point -/

namespace Numeral

theorem whole_toDigits (n : ℕ) : whole (Nat.toDigits 10 n) = n := by
  have read := ofDigitChars_eq (Nat.toDigits 10 n) 0
  rw [Nat.ofDigitChars_ten_toDigits, Nat.zero_mul, Nat.zero_add] at read
  exact read.symm

theorem isDigit_toDigits {n : ℕ} : ∀ c ∈ Nat.toDigits 10 n, c.isDigit := fun _ =>
  Nat.isDigit_of_mem_toDigits (by decide) (by decide)

theorem digit_le {c : Char} (h : c.isDigit) : digit c ≤ 9 := by
  rw [Char.isDigit, Bool.and_eq_true, decide_eq_true_eq, decide_eq_true_eq] at h
  have upper : c.toNat ≤ 57 := h.2
  have zero : '0'.toNat = 48 := rfl
  unfold digit
  omega

theorem whole_lt {digits : List Char} (h : ∀ c ∈ digits, c.isDigit) :
    whole digits < 10 ^ digits.length := by
  induction digits with
  | nil => exact Nat.one_pos
  | cons d ds ih =>
    have later := ih fun c hc => h c (List.mem_cons_of_mem d hc)
    have small := digit_le (h d List.mem_cons_self)
    calc digit d * 10 ^ ds.length + whole ds
        < 9 * 10 ^ ds.length + 10 ^ ds.length :=
          Nat.add_lt_add_of_le_of_lt (Nat.mul_le_mul_right _ small) later
      _ = 10 ^ (d :: ds).length := by rw [List.length_cons, pow_succ]; ring

/-- With a one before them, the digits keep the zeros they begin with. -/
theorem exists_padded {k r : ℕ} (hk : 0 < k) (hr : r < tenTo k) :
    ∃ ds, (Nat.toDigits 10 (tenTo k + r)).drop 1 = ds ∧ ds.length = k ∧ whole ds = r
      ∧ ∀ c ∈ ds, c.isDigit := by
  have power : tenTo k = 10 ^ k := rfl
  rw [power] at hr ⊢
  have short : (Nat.toDigits 10 (10 ^ k + r)).length ≤ k + 1 := by
    rw [Nat.length_toDigits_le_iff (by decide) (Nat.succ_pos k), pow_succ]
    omega
  have long : ¬ (Nat.toDigits 10 (10 ^ k + r)).length ≤ k := by
    rw [Nat.length_toDigits_le_iff (by decide) hk]
    omega
  have digits := isDigit_toDigits (n := 10 ^ k + r)
  have read := whole_toDigits (10 ^ k + r)
  cases written : Nat.toDigits 10 (10 ^ k + r) with
  | nil => exact absurd written Nat.toDigits_ne_nil
  | cons d ds =>
    rw [written] at short long digits read
    rw [List.length_cons] at short long
    rw [List.forall_mem_cons] at digits
    obtain rfl : ds.length = k := by omega
    have later := whole_lt digits.2
    refine ⟨ds, rfl, rfl, ?_, digits.2⟩
    rw [whole] at read
    have remainder := congrArg (· % 10 ^ ds.length) read
    simpa [Nat.mod_eq_of_lt later, Nat.mod_eq_of_lt hr, Nat.add_mod] using remainder

/-- Digits, a point and digits again. -/
structure Pointed (text before after : List Char) : Prop where
  text : text = before ++ '.' :: after
  before : before ≠ [] ∧ ∀ c ∈ before, c.isDigit
  after : after ≠ [] ∧ ∀ c ∈ after, c.isDigit

namespace Pointed

variable {text before after : List Char} (h : Pointed text before after)

include h

theorem isLexeme : Lexical.IsLexeme .number text := by
  obtain ⟨rfl, ⟨filled, hbefore⟩, filled', hafter⟩ := h
  obtain ⟨c, cs, rfl⟩ := List.exists_cons_of_ne_nil filled
  obtain ⟨d, ds, rfl⟩ := List.exists_cons_of_ne_nil filled'
  rw [List.forall_mem_cons] at hbefore hafter
  exact ⟨[], .decimal hbefore.1 hbefore.2 hafter.1 hafter.2 nofun⟩

theorem value_eq : value text = whole before + fraction after := by
  have digits : ∀ c ∈ before, (c != '.') = true := by
    intro c hc
    have digit := h.before.2 c hc
    rw [bne_iff_ne]
    rintro rfl
    contradiction
  have stop : ∀ c ∈ ('.' :: after).head?, (c != '.') = false := by
    rintro c ⟨⟩
    rfl
  rw [h.text, value, Lexical.takeWhile_run digits stop, Lexical.dropWhile_run digits stop,
    List.drop_one, List.tail_cons]

end Pointed

end Numeral

namespace Decimal

open Numeral

/-- The plain form of a decimal is a numeral with its value. -/
theorem exists_pointed (d : Decimal) :
    ∃ before after, Pointed d.plain before after ∧ whole before + fraction after = d.value := by
  unfold plain
  split
  · next negative =>
    have hk : 0 < d.exponent.natAbs := Int.natAbs_pos.mpr negative.ne
    have hr : d.coefficient % tenTo d.exponent.natAbs < tenTo d.exponent.natAbs :=
      Nat.mod_lt _ (tenTo_pos _)
    obtain ⟨ds, written, length, read, digits⟩ := exists_padded hk hr
    have filled : ds ≠ [] := by
      rintro rfl
      exact hk.ne length
    refine ⟨Nat.toDigits 10 (d.coefficient / tenTo d.exponent.natAbs), ds, ⟨?_, ?_, ?_⟩, ?_⟩
    · dsimp only
      rw [written]
    · exact ⟨Nat.toDigits_ne_nil, isDigit_toDigits⟩
    · exact ⟨filled, digits⟩
    · rw [whole_toDigits, fraction_eq, read, length, value_of_neg negative,
        Binary64.cast_div_eq (tenTo_pos _), cast_tenTo]
  · next positive =>
    have nothing : fraction ['0'] = 0 := by simp [fraction, digit]
    have zero : ∀ c ∈ ['0'], c.isDigit := List.forall_mem_singleton.mpr rfl
    refine ⟨_, ['0'], ⟨rfl, ?_, List.cons_ne_nil _ _, zero⟩, ?_⟩
    · exact ⟨Nat.toDigits_ne_nil, isDigit_toDigits⟩
    · rw [whole_toDigits, nothing, add_zero, value_of_nonneg positive]

end Decimal

/-! ### The shortest decimal reads back -/

namespace Decimal

theorem value_trim (d : Decimal) : d.trim.value = d.value := by
  fun_induction trim d with
  | case1 d zeros ih =>
    rw [ih, value, value, zpow_add_one₀ (by norm_num)]
    have whole : (d.coefficient / 10 : ℕ) * (10 : ℚ) = d.coefficient := by
      exact_mod_cast Nat.div_mul_cancel (Nat.dvd_of_mod_eq_zero zeros.2)
    rw [← whole]
    ring
  | case2 d h => rfl

end Decimal

namespace Binary64

variable {x : Binary64}

theorem neighbour?_isReadFrom {step : ℕ} {d : Decimal} (h : x.neighbour? step = some d) :
    x.IsReadFrom d := by
  unfold neighbour? at h
  dsimp only at h
  split at h
  · next lower =>
    split at h
    · next upper => exact Option.some.inj h ▸ upper.1
    · exact Option.some.inj h ▸ lower
  · split at h
    · next upper => exact Option.some.inj h ▸ upper
    · contradiction

theorem value_exact (x : Binary64) : x.exact.value * unitsPerOne = unitsOf x.magnitude := by
  have exponent : x.exact.exponent = -(1074 : ℕ) := rfl
  rw [Decimal.value, exponent, exact, unitsPerOne]
  -- The powers are too great to be computed.
  generalize (1074 : ℕ) = n
  have power : (10 : ℚ) ^ n = 5 ^ n * 2 ^ n := by
    rw [← mul_pow]
    norm_num
  have positive : (10 : ℚ) ^ n ≠ 0 := pow_ne_zero _ (by norm_num)
  have fives : ((Nat.pow 5 n : ℕ) : ℚ) = 5 ^ n := Nat.cast_pow 5 n
  rw [Nat.cast_mul, fives, cast_twoTo, zpow_neg, zpow_natCast,
    mul_right_comm, mul_assoc _ _ (2 ^ n), ← power, mul_inv_cancel_right₀ positive, units]

theorem round_exact (finite : x.isFinite = true) : x.exact.round.magnitude = x.magnitude := by
  obtain ⟨m, rounds, near⟩ := x.exact.exists_nearest
  rw [value_exact] at near
  rw [rounds, near.unique (nearest_unitsOf _), magnitude_saturated]
  exact Nat.min_eq_left (Nat.le_of_lt (of_decide_eq_true finite))

theorem round_zero : (⟨0, 0⟩ : Decimal).round = ofMagnitude 0 := by
  rw [Decimal.round_eq_zero_iff, Decimal.value, Nat.cast_zero, zero_mul]
  positivity

/-- The decimal that a finite number is written with is rounded to the number. -/
theorem round_shortest (positive : x.isNegative = false) (finite : x.isFinite = true) :
    x.shortest.round = x := by
  unfold shortest
  split
  · next zero =>
    have none : x.magnitude = 0 := beq_iff_eq.mp zero
    rw [round_zero, eq_ofMagnitude positive, none]
  · have found : x.IsReadFrom
        (((List.range gridCount).findSome? fun n => x.neighbour? (x.coarsestStep - n)).getD x.exact) := by
      cases search : (List.range gridCount).findSome? fun n => x.neighbour? (x.coarsestStep - n) with
      | none => exact round_exact finite
      | some d =>
        obtain ⟨n, -, near⟩ := List.exists_of_findSome?_eq_some search
        exact neighbour?_isReadFrom near
    rw [Decimal.round_congr (Decimal.value_trim _)]
    exact eq_of_magnitude (Decimal.rounded_round _).isNegative positive found

/-! ### The range of the plain form -/

/-- Zero and the numbers from 10⁻⁴ up to, but not including, 10¹⁶. -/
def InPlainRange (x : Binary64) : Prop :=
  x.value = 0 ∨ x.isFinite = true ∧ 1 / 10 ^ 4 ≤ x.value ∧ x.value < 10 ^ 16

section Quotients

variable {units one : ℕ} (h : (0 : ℚ) < one)

include h

theorem least_le_div_iff : (1 : ℚ) / 10 ^ 4 ≤ units / one ↔ one ≤ units * 10 ^ 4 := by
  rw [div_le_div_iff₀ (by norm_num) h, one_mul]
  norm_cast

theorem div_lt_limit_iff : (units : ℚ) / one < 10 ^ 16 ↔ units < 10 ^ 16 * one := by
  rw [div_lt_iff₀ h]
  norm_cast

end Quotients

theorem leastPlain_le_iff {m : ℕ} :
    leastPlain ≤ m ↔ (1 : ℚ) / 10 ^ 4 ≤ unitsOf m / unitsPerOne := by
  have reaches : unitsPerOne ≤ unitsOf leastPlain * 10 ^ 4 := by decide +kernel
  have misses : unitsOf (leastPlain - 1) * 10 ^ 4 < unitsPerOne := by decide +kernel
  rw [least_le_div_iff unitsPerOne_pos]
  constructor
  · intro h
    exact reaches.trans (Nat.mul_le_mul_right _ (strictMono_unitsOf.monotone h))
  · intro h
    by_contra less
    have before := strictMono_unitsOf.monotone (show m ≤ leastPlain - 1 by omega)
    have passed := Nat.mul_le_mul_right (10 ^ 4) before
    omega

theorem lt_plainLimit_iff {m : ℕ} :
    m < plainLimit ↔ (unitsOf m : ℚ) / unitsPerOne < 10 ^ 16 := by
  have limit : unitsOf plainLimit = 10 ^ 16 * unitsPerOne := by decide +kernel
  rw [div_lt_limit_iff unitsPerOne_pos, ← limit, strictMono_unitsOf.lt_iff_lt]

theorem isPlain_iff_magnitude :
    x.isPlain = true
      ↔ x.magnitude = 0 ∨ leastPlain ≤ x.magnitude ∧ x.magnitude < plainLimit := by
  rw [isPlain, isZero, Bool.or_eq_true, Bool.and_eq_true, beq_iff_eq, decide_eq_true_eq,
    decide_eq_true_eq]

theorem isFinite_of_isPlain (h : x.isPlain = true) : x.isFinite = true := by
  have limit : plainLimit < infiniteMagnitude := by decide +kernel
  refine decide_eq_true ?_
  rcases isPlain_iff_magnitude.mp h with zero | ⟨-, below⟩
  · rw [zero]
    exact Nat.zero_lt_of_lt limit
  · exact below.trans limit

theorem isPlain_iff (positive : x.isNegative = false) : x.isPlain = true ↔ x.InPlainRange := by
  have zero : x.magnitude = 0 ↔ (unitsOf x.magnitude : ℚ) / unitsPerOne = 0 := by
    rw [div_eq_zero_iff, or_iff_left unitsPerOne_pos.ne', Nat.cast_eq_zero]
    exact (strictMono_unitsOf.injective.eq_iff' unitsOf_zero).symm
  have range : x.isPlain = true ↔ x.value = 0 ∨ 1 / 10 ^ 4 ≤ x.value ∧ x.value < 10 ^ 16 := by
    rw [isPlain_iff_magnitude, zero, leastPlain_le_iff, lt_plainLimit_iff,
      value_of_positive positive]
  constructor
  · intro h
    exact (range.mp h).imp_right fun bounds => ⟨isFinite_of_isPlain h, bounds⟩
  · intro h
    exact range.mpr (h.imp_right And.right)

/-! ### The printed text -/

theorem text_of_finite (positive : x.isNegative = false) (finite : x.isFinite = true) :
    x.text = String.ofList x.digitsText := by
  have below : x.magnitude < infiniteMagnitude := of_decide_eq_true finite
  have number : x.isNaN = false := decide_eq_false (by omega)
  have notInfinite : x.isInfinite = false := beq_eq_false_iff_ne.mpr below.ne
  rw [text, number, positive, notInfinite, if_neg Bool.false_ne_true, if_neg Bool.false_ne_true,
    if_neg Bool.false_ne_true, String.empty_append]

theorem text_infinity : infinity.text = "inf" := by decide

/-- Outside of the plain range there is a letter in the text. -/
theorem exists_letter (positive : x.isNegative = false) (number : x.isNaN = false)
    (outside : ¬ x.InPlainRange) : ∃ c ∈ x.text.toList, Lexical.isLetter c := by
  by_cases finite : x.isFinite = true
  · rw [← isPlain_iff positive] at outside
    refine ⟨'e', ?_, rfl⟩
    rw [text_of_finite positive finite, String.toList_ofList, digitsText, if_neg outside,
      Decimal.scientific]
    simp
  · have infinite : x.magnitude = infiniteMagnitude := by
      have least : ¬ x.magnitude < infiniteMagnitude := fun h => finite (decide_eq_true h)
      have most : ¬ infiniteMagnitude < x.magnitude := of_decide_eq_false number
      omega
    refine ⟨'i', ?_, rfl⟩
    rw [eq_ofMagnitude positive, infinite]
    have text := text_infinity
    rw [infinity] at text
    rw [text]
    decide

end Binary64

namespace Lexical

open Binary64 (InPlainRange)

/-- A lexeme on a single line is scanned on its own. -/
theorem scan_lexeme {kind : Kind} {characters : List Char} (h : IsLexeme kind characters)
    (other : kind ≠ .string) :
    scan (String.ofList characters)
      = ⟨[tokenOf kind characters 1, Token.endOfSource 1], []⟩ := by
  have cut : segments characters = [.lexeme kind characters] := by
    have alone := segments_append (h.endsBefore (not_continues_nil kind characters))
    rwa [segments_nil, List.append_nil] at alone
  have single : (Segment.lexeme kind characters).lineEnds = 0 := by
    refine lineEnds_eq_zero ?_
    intro newline
    exact absurd (isBlank_eq_false_of_mem_lexeme h other _ newline) (by decide)
  have tokens := scan_tokens (String.ofList characters)
  have reports := scan_reports (String.ofList characters)
  rw [String.toList_ofList, cut, tokensFrom, lineAfter, single, UInt32.add_zero] at tokens
  rw [String.toList_ofList, cut] at reports
  have both : scan (String.ofList characters) = ⟨(scan _).tokens, (scan _).reports⟩ := rfl
  rw [both, tokens, reports]
  rfl

theorem scan_text {x : Binary64} (positive : x.isNegative = false) (range : x.InPlainRange) :
    scan x.text = ⟨[⟨.number, x.text, some (.number x), 1⟩, Token.endOfSource 1], []⟩ := by
  have plain := (Binary64.isPlain_iff positive).mpr range
  have finite := Binary64.isFinite_of_isPlain plain
  obtain ⟨before, after, pointed, exact⟩ := x.shortest.exists_pointed
  have text : x.text = String.ofList x.shortest.plain := by
    rw [Binary64.text_of_finite positive finite, Binary64.digitsText, if_pos plain]
  have reads : (Decimal.ofText x.shortest.plain).round = x := by
    have same : (Decimal.ofText x.shortest.plain).value = x.shortest.value := by
      rw [Decimal.value_ofText, pointed.value_eq, exact]
    rw [Decimal.round_congr same, Binary64.round_shortest positive finite]
  rw [text, scan_lexeme pointed.isLexeme nofun, tokenOf, literalOf, reads]

theorem isLetter_eq_false_of_number {characters : List Char}
    (h : characters ∈ Pattern.number.language) : ∀ c ∈ characters, isLetter c = false := by
  have digits {cs : List Char} (hcs : ∀ c ∈ cs, c.isDigit) : ∀ c ∈ cs, isLetter c = false :=
    fun c hc => isLetter_eq_false_of_isDigit (hcs c hc)
  obtain ⟨c, cs, tail, rfl, hc, hcs, htail⟩ := mem_number.mp h
  rw [List.forall_mem_cons, List.forall_mem_append]
  refine ⟨isLetter_eq_false_of_isDigit hc, digits hcs, ?_⟩
  rcases htail with rfl | ⟨d, ds, rfl, hd, hds⟩
  · nofun
  · rw [List.forall_mem_cons, List.forall_mem_cons]
    exact ⟨rfl, isLetter_eq_false_of_isDigit hd, digits hds⟩

/-- A number is scanned back from its plain form, bit by bit; the other forms are no numerals. -/
theorem scan_render_number {source : String} {t : Token} {x : Binary64}
    (ht : t ∈ (scan source).tokens) (kind : t.kind = .number)
    (literal : t.literal = some (.number x)) :
    (x.InPlainRange → scan (Literal.number x).render
        = ⟨[⟨.number, (Literal.number x).render, some (.number x), 1⟩, Token.endOfSource 1], []⟩)
      ∧ (¬ x.InPlainRange → ∀ u ∈ (scan (Literal.number x).render).tokens, u.kind = .number →
        u.lexeme ≠ (Literal.number x).render) := by
  obtain ⟨-, same⟩ := content_of_number ht kind
  obtain rfl : _ = x := Literal.number.inj (Option.some.inj (same.symm.trans literal))
  have rounded := (Decimal.ofText t.lexeme.toList).rounded_round
  refine ⟨scan_text rounded.isNegative, ?_⟩
  intro outside u hu number printed
  obtain ⟨c, mem, letter⟩ := Binary64.exists_letter rounded.isNegative rounded.isNaN outside
  obtain ⟨fits, -⟩ := content_of_number hu number
  rw [printed] at fits
  exact absurd letter (Bool.eq_false_iff.mp (isLetter_eq_false_of_number fits c mem))

/-- The greatest number below 10¹⁶, and 10¹⁶ itself. -/
theorem scan_render_number_limit :
    (scan "9999999999999998 10000000000000000").tokens
        = [tokenOf .number "9999999999999998".toList 1,
          tokenOf .number "10000000000000000".toList 1, Token.endOfSource 1]
      ∧ scan "9999999999999998.0"
        = ⟨[⟨.number, "9999999999999998.0", some (.number ⟨0x4341c37937e07fff⟩), 1⟩,
          Token.endOfSource 1], []⟩
      ∧ ∀ u ∈ (scan "1e16").tokens, u.kind = .number → u.lexeme ≠ "1e16" := by
  have cut : segments "9999999999999998 10000000000000000".toList
      = [.lexeme .number "9999999999999998".toList, .blank ' ',
        .lexeme .number "10000000000000000".toList] := by decide +kernel
  have tokens : (scan "9999999999999998 10000000000000000").tokens
      = [tokenOf .number "9999999999999998".toList 1,
        tokenOf .number "10000000000000000".toList 1, Token.endOfSource 1] := by
    rw [scan_tokens, cut]
    rfl
  have below : tokenOf .number "9999999999999998".toList 1
      ∈ (scan "9999999999999998 10000000000000000").tokens := by
    rw [tokens]
    exact List.mem_cons_self
  have limit : tokenOf .number "10000000000000000".toList 1
      ∈ (scan "9999999999999998 10000000000000000").tokens := by
    rw [tokens]
    exact List.mem_cons_of_mem _ List.mem_cons_self
  have bits : (Decimal.ofText "9999999999999998".toList).round.bits = 0x4341c37937e07fff := by
    decide +kernel
  have bits' : (Decimal.ofText "10000000000000000".toList).round.bits = 0x4341c37937e08000 := by
    decide +kernel
  have literal : (tokenOf .number "9999999999999998".toList 1).literal
      = some (.number ⟨0x4341c37937e07fff⟩) :=
    congrArg (fun bits => some (Literal.number ⟨bits⟩)) bits
  have literal' : (tokenOf .number "10000000000000000".toList 1).literal
      = some (.number ⟨0x4341c37937e08000⟩) :=
    congrArg (fun bits => some (Literal.number ⟨bits⟩)) bits'
  have inside : InPlainRange ⟨0x4341c37937e07fff⟩ :=
    (Binary64.isPlain_iff (by decide)).mp (by decide +kernel)
  have outside : ¬ InPlainRange ⟨0x4341c37937e08000⟩ := by
    rw [← Binary64.isPlain_iff (by decide)]
    decide +kernel
  have text : (Literal.number ⟨0x4341c37937e07fff⟩).render = "9999999999999998.0" := by
    decide +kernel
  have text' : (Literal.number ⟨0x4341c37937e08000⟩).render = "1e16" := by decide +kernel
  have plain := (scan_render_number below rfl literal).1 inside
  have other := (scan_render_number limit rfl literal').2 outside
  rw [text] at plain
  rw [text'] at other
  exact ⟨tokens, plain, other⟩

end Lexical

end Lox
