import Lox.Proofs.Readability
import Lox.Proofs.TokenEquality

/-!
# Equality of expressions

Two expressions are equal if they have the same shape and, place by place, equal operators and equal
values (`Alike`).  The comparison of numbers by IEEE 754 comes in at two places, the values and the
literals of the operators.  It makes equality symmetric and transitive, but an expression with NaN at
one of these places differs from itself, and equal expressions with zeros can be printed differently.
-/

namespace Lox

/-! ### Numbers -/

namespace Binary64

def negativeZero : Binary64 := ⟨UInt64.ofNat magnitudeCount⟩

theorem beq_iff {x y : Binary64} :
    (x == y) = true
      ↔ x.isNaN = false ∧ y.isNaN = false ∧ (x = y ∨ x.isZero = true ∧ y.isZero = true) := by
  have bits : x.bits = y.bits ↔ x = y := by
    constructor
    · intro same
      cases x
      cases y
      exact congrArg mk same
    · intro same
      rw [same]
  show equal x y = true ↔ _
  simp [equal, bits, and_assoc]

instance : PartialEquivBEq Binary64 where
  symm h := by rwa [beq_comm]
  trans := by
    intro x y z h h'
    rw [beq_iff] at h h' ⊢
    obtain ⟨hx, -, same⟩ := h
    obtain ⟨-, hz, same'⟩ := h'
    refine ⟨hx, hz, ?_⟩
    rcases same with rfl | ⟨zero, _⟩
    · exact same'
    · rcases same' with rfl | ⟨_, zero'⟩
      · exact .inr ⟨zero, by assumption⟩
      · exact .inr ⟨zero, zero'⟩

/-- There are two zeros, and they differ in the sign alone. -/
theorem isZero_iff {x : Binary64} : x.isZero = true ↔ x = ofMagnitude 0 ∨ x = negativeZero := by
  constructor
  · intro zero
    have parts : x.bits.toNat = 0 ∨ x.bits.toNat = magnitudeCount := by
      have multiple : x.bits.toNat % magnitudeCount = 0 := by simpa [isZero, magnitude] using zero
      have bound := x.bits.toNat_lt
      rw [magnitudeCount] at multiple ⊢
      omega
    rcases parts with none | sign
    · exact .inl (congrArg mk (UInt64.toNat_inj.mp none))
    · exact .inr (congrArg mk (UInt64.toNat_inj.mp sign))
  · rintro (rfl | rfl) <;> decide

/-- Equal numbers are one number, or zeros. -/
theorem eq_of_beq {x y : Binary64} (same : (x == y) = true) (hx : x ≠ negativeZero)
    (hy : y ≠ negativeZero) : x = y := by
  obtain ⟨-, -, one | ⟨zero, zero'⟩⟩ := beq_iff.mp same
  · exact one
  · rw [(isZero_iff.mp zero).resolve_right hx, (isZero_iff.mp zero').resolve_right hy]

end Binary64

/-! ### Literals, tokens and values -/

instance partialEquivBEqOption {α : Type} [BEq α] [PartialEquivBEq α] :
    PartialEquivBEq (Option α) where
  symm := by
    intro a b h
    cases a <;> cases b <;> simp_all [BEq.comm]
  trans := by
    intro a b c h h'
    cases a <;> cases b <;> cases c <;> simp_all
    exact BEq.trans h h'

namespace Literal

def isNaN : Literal → Bool
  | text _ => false
  | number x => x.isNaN

theorem beq_self (a : Literal) : (a == a) = !a.isNaN := by
  cases a with
  | text s => exact beq_self_eq_true s
  | number x => exact x.beq_self

theorem eq_or_numbers {a b : Literal} (h : (a == b) = true) :
    a = b ∨ ∃ x y, a = number x ∧ b = number y ∧ (x == y) = true := by
  cases a with
  | text s =>
    cases b with
    | text t => exact .inl (congrArg text (eq_of_beq (α := String) h))
    | number y => contradiction
  | number x =>
    cases b with
    | text t => contradiction
    | number y => exact .inr ⟨x, y, rfl, rfl, h⟩

instance : PartialEquivBEq Literal where
  symm := by
    intro a b h
    rcases eq_or_numbers h with rfl | ⟨x, y, rfl, rfl, same⟩
    · exact h
    · exact BEq.symm (α := Binary64) same
  trans := by
    intro a b c h h'
    rcases eq_or_numbers h with rfl | ⟨x, y, rfl, rfl, same⟩
    · exact h'
    · rcases eq_or_numbers h' with rfl | ⟨y', z, ⟨⟩, rfl, same'⟩
      · exact h
      · exact BEq.trans (α := Binary64) same same'

end Literal

namespace Token

/-- The value of the token is NaN. -/
def isNaN (t : Token) : Bool := t.literal.any Literal.isNaN

theorem beq_self (t : Token) : (t == t) = !t.isNaN := by
  have literal : (t.literal == t.literal) = !t.isNaN := by
    unfold isNaN
    cases t.literal with
    | none => rfl
    | some value => exact value.beq_self
  show t.equal t = _
  simp [equal, literal]

instance : PartialEquivBEq Token where
  symm := by
    intro a b h
    obtain ⟨kind, lexeme, literal, line⟩ := beq_iff.mp h
    exact beq_iff.mpr ⟨kind.symm, lexeme.symm, BEq.symm literal, line.symm⟩
  trans := by
    intro a b c h h'
    obtain ⟨kind, lexeme, literal, line⟩ := beq_iff.mp h
    obtain ⟨kind', lexeme', literal', line'⟩ := beq_iff.mp h'
    exact beq_iff.mpr ⟨kind.trans kind', lexeme.trans lexeme', BEq.trans literal literal',
      line.trans line'⟩

end Token

namespace Value

def isNaN : Value → Bool
  | number x => x.isNaN
  | text _ | boolean _ | nul => false

theorem beq_self (v : Value) : (v == v) = !v.isNaN := by
  cases v with
  | number x => exact x.beq_self
  | text s => exact beq_self_eq_true s
  | boolean b => exact beq_self_eq_true b
  | nul => rfl

theorem eq_or_numbers {v w : Value} (h : (v == w) = true) :
    v = w ∨ ∃ x y, v = number x ∧ w = number y ∧ (x == y) = true := by
  cases v <;> cases w <;> try contradiction
  case number.number x y => exact .inr ⟨x, y, rfl, rfl, h⟩
  case text.text s t => exact .inl (congrArg text (eq_of_beq (α := String) h))
  case boolean.boolean b c => exact .inl (congrArg boolean (eq_of_beq (α := Bool) h))
  case nul.nul => exact .inl rfl

instance : PartialEquivBEq Value where
  symm := by
    intro v w h
    rcases eq_or_numbers h with rfl | ⟨x, y, rfl, rfl, same⟩
    · exact h
    · exact BEq.symm (α := Binary64) same
  trans := by
    intro v w u h h'
    rcases eq_or_numbers h with rfl | ⟨x, y, rfl, rfl, same⟩
    · exact h'
    · rcases eq_or_numbers h' with rfl | ⟨y', z, ⟨⟩, rfl, same'⟩
      · exact h
      · exact BEq.trans (α := Binary64) same same'

theorem render_zero : (number (.ofMagnitude 0)).render.toList = ['0', '.', '0'] := by decide

theorem render_negativeZero : (number .negativeZero).render.toList = ['-', '0', '.', '0'] := by
  decide

/-- Equal values that are written alike are one value, since the sign shows which zero it is. -/
theorem cancel {v w : Value} {rest rest' : List Char} (h : (v == w) = true)
    (same : v.render.toList ++ rest = w.render.toList ++ rest') : v = w ∧ rest = rest' := by
  have one : v = w ∨ (v = number (.ofMagnitude 0) ∧ w = number .negativeZero)
      ∨ (v = number .negativeZero ∧ w = number (.ofMagnitude 0)) := by
    rcases eq_or_numbers h with rfl | ⟨x, y, rfl, rfl, equal⟩
    · exact .inl rfl
    · obtain ⟨-, -, rfl | ⟨zero, zero'⟩⟩ := Binary64.beq_iff.mp equal
      · exact .inl rfl
      · rcases Binary64.isZero_iff.mp zero with rfl | rfl <;>
          rcases Binary64.isZero_iff.mp zero' with rfl | rfl <;> simp
  rcases one with rfl | ⟨rfl, rfl⟩ | ⟨rfl, rfl⟩
  · exact ⟨rfl, List.append_cancel_left same⟩
  · rw [render_zero, render_negativeZero] at same
    exact absurd (List.cons.inj same).1 (by decide)
  · rw [render_zero, render_negativeZero] at same
    exact absurd (List.cons.inj same).1 (by decide)

end Value

/-! ### Trees -/

namespace Expr

/-- The values at the leaves, from left to right. -/
def values : Expr → List Value
  | binary left _ right => left.values ++ right.values
  | group inner => inner.values
  | literal value => [value]
  | unary _ right => right.values

def operators : Expr → List Token
  | binary left operator right => left.operators ++ operator :: right.operators
  | group inner => inner.operators
  | literal _ => []
  | unary operator right => operator :: right.operators

/-- The expressions have one shape, and what stands in the same place is equal. -/
inductive Alike : Expr → Expr → Prop
  | binary {l l' r r' : Expr} {o o' : Token} (left : Alike l l') (operator : (o == o') = true)
      (right : Alike r r') : Alike (binary l o r) (binary l' o' r')
  | group {e e' : Expr} (inner : Alike e e') : Alike (group e) (group e')
  | literal {v v' : Value} (value : (v == v') = true) : Alike (literal v) (literal v')
  | unary {o o' : Token} {r r' : Expr} (operator : (o == o') = true) (right : Alike r r') :
      Alike (unary o r) (unary o' r')

theorem alike_of_beq {a b : Expr} (h : a.equal b = true) : Alike a b := by
  induction a generalizing b with
  | binary l o r ihl ihr =>
    cases b with
    | binary l' o' r' =>
      obtain ⟨⟨left, operator⟩, right⟩ :
          (l.equal l' = true ∧ (o == o') = true) ∧ r.equal r' = true := by
        simpa only [equal, Bool.and_eq_true] using h
      exact .binary (ihl left) operator (ihr right)
    | _ => contradiction
  | group e ih =>
    cases b with
    | group e' => exact .group (ih h)
    | _ => contradiction
  | literal v =>
    cases b with
    | literal v' => exact .literal h
    | _ => contradiction
  | unary o r ih =>
    cases b with
    | unary o' r' =>
      obtain ⟨operator, right⟩ : (o == o') = true ∧ r.equal r' = true := by
        simpa only [equal, Bool.and_eq_true] using h
      exact .unary operator (ih right)
    | _ => contradiction

theorem Alike.equal {a b : Expr} (h : Alike a b) : a.equal b = true := by
  induction h with
  | binary _ operator _ ihl ihr => simp only [Expr.equal, ihl, operator, ihr, Bool.and_true]
  | group _ ih => exact ih
  | literal value => exact value
  | unary operator _ ih => simp only [Expr.equal, operator, ih, Bool.and_true]

theorem beq_iff_alike {a b : Expr} : (a == b) = true ↔ Alike a b :=
  ⟨alike_of_beq, Alike.equal⟩

theorem Alike.symm {a b : Expr} (h : Alike a b) : Alike b a := by
  induction h with
  | binary _ operator _ ihl ihr => exact .binary ihl (BEq.symm operator) ihr
  | group _ ih => exact .group ih
  | literal value => exact .literal (BEq.symm value)
  | unary operator _ ih => exact .unary (BEq.symm operator) ih

theorem Alike.trans {a b c : Expr} (h : Alike a b) (h' : Alike b c) : Alike a c := by
  induction h generalizing c with
  | binary _ operator _ ihl ihr =>
    cases h' with
    | binary left operator' right => exact .binary (ihl left) (BEq.trans operator operator') (ihr right)
  | group _ ih =>
    cases h' with
    | group inner => exact .group (ih inner)
  | literal value =>
    cases h' with
    | literal value' => exact .literal (BEq.trans value value')
  | unary operator _ ih =>
    cases h' with
    | unary operator' right => exact .unary (BEq.trans operator operator') (ih right)

instance : PartialEquivBEq Expr where
  symm h := beq_iff_alike.mpr (beq_iff_alike.mp h).symm
  trans h h' := beq_iff_alike.mpr ((beq_iff_alike.mp h).trans (beq_iff_alike.mp h'))

theorem beq_self_iff (a : Expr) :
    (a == a) = true
      ↔ (∀ v ∈ a.values, v.isNaN = false) ∧ ∀ t ∈ a.operators, t.isNaN = false := by
  show a.equal a = true ↔ _
  induction a with
  | binary l o r ihl ihr =>
    simp only [equal, values, operators, Bool.and_eq_true, ihl, ihr, Token.beq_self, Bool.not_eq_true',
      List.forall_mem_append, List.forall_mem_cons]
    tauto
  | group e ih => exact ih
  | literal v =>
    show (v == v) = true ↔ _
    simp [values, operators, Value.beq_self]
  | unary o r ih =>
    simp only [equal, values, operators, Bool.and_eq_true, ih, Token.beq_self, Bool.not_eq_true',
      List.forall_mem_cons]
    tauto

/-! ### Equal expressions in print -/

theorem Alike.length_values {a b : Expr} (h : Alike a b) : a.values.length = b.values.length := by
  induction h with
  | binary _ _ _ ihl ihr => simp only [values, List.length_append, ihl, ihr]
  | group _ ih => exact ih
  | literal _ => rfl
  | unary _ _ ih => exact ih

theorem Alike.skeleton_eq {a b : Expr} (h : Alike a b) (same : a.values = b.values) :
    a.skeleton = b.skeleton := by
  induction h with
  | binary left operator _ ihl ihr =>
    obtain ⟨lefts, rights⟩ := List.append_inj same left.length_values
    rw [skeleton, skeleton, ihl lefts, ihr rights, (Token.beq_iff.mp operator).2.1]
  | group _ ih => exact congrArg Skeleton.group (ih same)
  | literal _ => rw [(List.cons.inj same).1]
  | unary operator _ ih => rw [skeleton, skeleton, ih same, (Token.beq_iff.mp operator).2.1]

theorem Alike.cancel {a b : Expr} (h : Alike a b) {rest rest' : List Char}
    (same : a.skeleton.chars ++ rest = b.skeleton.chars ++ rest') :
    a.values = b.values ∧ rest = rest' := by
  induction h generalizing rest rest' with
  | binary _ operator _ ihl ihr =>
    simp only [skeleton, Skeleton.chars, (Token.beq_iff.mp operator).2.1, List.cons_append,
      List.append_assoc, List.cons.injEq, true_and, List.append_cancel_left_eq] at same
    obtain ⟨lefts, same⟩ := ihl same
    obtain ⟨rights, same⟩ := ihr (List.cons.inj same).2
    exact ⟨by rw [values, values, lefts, rights], (List.cons.inj same).2⟩
  | group _ ih =>
    simp only [skeleton, Skeleton.chars, List.cons_append,
      List.append_assoc, List.cons.injEq, true_and, List.append_cancel_left_eq] at same
    obtain ⟨inside, same⟩ := ih same
    exact ⟨inside, (List.cons.inj same).2⟩
  | literal value =>
    obtain ⟨one, same⟩ := Value.cancel value same
    exact ⟨by rw [one], same⟩
  | unary operator _ ih =>
    simp only [skeleton, Skeleton.chars, (Token.beq_iff.mp operator).2.1, List.cons_append,
      List.append_assoc, List.cons.injEq, true_and, List.append_cancel_left_eq] at same
    obtain ⟨inside, same⟩ := ih same
    exact ⟨inside, (List.cons.inj same).2⟩

theorem Alike.print_eq_iff_values {a b : Expr} (h : Alike a b) :
    a.print = b.print ↔ a.values = b.values := by
  rw [← String.toList_inj, toList_print, toList_print]
  constructor
  · intro same
    have closed : a.skeleton.chars ++ [] = b.skeleton.chars ++ [] := by rw [same]
    exact (h.cancel closed).1
  · intro same
    rw [h.skeleton_eq same]

theorem Alike.values_eq {a b : Expr} (h : Alike a b) (ha : .number .negativeZero ∉ a.values)
    (hb : .number .negativeZero ∉ b.values) : a.values = b.values := by
  induction h with
  | binary _ _ _ ihl ihr =>
    rw [values, List.mem_append, not_or] at ha hb
    rw [values, values, ihl ha.1 hb.1, ihr ha.2 hb.2]
  | group _ ih => exact ih ha hb
  | literal value =>
    rcases Value.eq_or_numbers value with rfl | ⟨x, y, rfl, rfl, same⟩
    · rfl
    · have hx : x ≠ .negativeZero := by
        rintro rfl
        exact ha List.mem_cons_self
      have hy : y ≠ .negativeZero := by
        rintro rfl
        exact hb List.mem_cons_self
      rw [Binary64.eq_of_beq same hx hy]
  | unary _ _ ih => exact ih ha hb

/-- Equality of expressions is symmetric and transitive, and it is reflexive where nothing is NaN.
Equal expressions are printed alike just if their values are the same, zeros with their signs; hence
they are where no value is the negative zero. -/
theorem beq_laws :
    (∀ a b : Expr, (a == b) = true → (b == a) = true)
      ∧ (∀ a b c : Expr, (a == b) = true → (b == c) = true → (a == c) = true)
      ∧ (∀ a : Expr, (a == a) = true
        ↔ (∀ v ∈ a.values, v.isNaN = false) ∧ ∀ t ∈ a.operators, t.isNaN = false)
      ∧ (∀ a b : Expr, (a == b) = true → (a.print = b.print ↔ a.values = b.values))
      ∧ ∀ a b : Expr, (a == b) = true → .number .negativeZero ∉ a.values →
        .number .negativeZero ∉ b.values → a.print = b.print := by
  refine ⟨fun _ _ => BEq.symm, fun _ _ _ => BEq.trans, beq_self_iff, ?_, ?_⟩
  · intro a b h
    exact (beq_iff_alike.mp h).print_eq_iff_values
  · intro a b h ha hb
    have alike := beq_iff_alike.mp h
    exact alike.print_eq_iff_values.mpr (alike.values_eq ha hb)

/-- Both operators carry a zero, of either sign, which is not printed. -/
theorem beq_laws_signedZero :
    (unary ⟨.number, "0", some (.number .negativeZero), 1⟩ (literal (.number (.ofMagnitude 0)))
        == unary ⟨.number, "0", some (.number (.ofMagnitude 0)), 1⟩
          (literal (.number (.ofMagnitude 0)))) = true
      ∧ (unary ⟨.number, "0", some (.number .negativeZero), 1⟩
          (literal (.number (.ofMagnitude 0)))).print
        = (unary ⟨.number, "0", some (.number (.ofMagnitude 0)), 1⟩
          (literal (.number (.ofMagnitude 0)))).print := by
  have positive : Value.number .negativeZero ∉ [Value.number (.ofMagnitude 0)] := by
    rw [List.mem_singleton, Value.number.injEq, Binary64.mk.injEq]
    decide
  have equal : (unary ⟨.number, "0", some (.number .negativeZero), 1⟩
        (literal (.number (.ofMagnitude 0)))
      == unary ⟨.number, "0", some (.number (.ofMagnitude 0)), 1⟩
        (literal (.number (.ofMagnitude 0)))) = true := by decide
  exact ⟨equal, beq_laws.2.2.2.2 _ _ equal positive positive⟩

end Expr

end Lox
