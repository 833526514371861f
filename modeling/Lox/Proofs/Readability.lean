import Lox.Expr.Basic
import Lox.Proofs.MaximalMunch

/-!
# Printed expressions are read in one way

The printed form of an expression shows its `Skeleton`: the lexemes of its operators and the texts of
its values, in their places.  It shows nothing else of the expression, and all of the skeleton, as long
as no lexeme and no text holds a space or a parenthesis and no operator looks like a grouping.  Such a
skeleton can be told from what is printed after it (`Cancels`), which is shown form by form.
-/

namespace Lox

inductive Skeleton where
  | binary (left : Skeleton) (operator : String) (right : Skeleton)
  | group (inner : Skeleton)
  | literal (text : String)
  | unary (operator : String) (right : Skeleton)
  deriving DecidableEq, Repr

def Expr.skeleton : Expr → Skeleton
  | binary left operator right => .binary left.skeleton operator.lexeme right.skeleton
  | group inner => .group inner.skeleton
  | literal value => .literal value.render
  | unary operator right => .unary operator.lexeme right.skeleton

namespace Skeleton

def isDelimiter (c : Char) : Bool := c == ' ' || c == '(' || c == ')'

/-- The text holds no space and no parenthesis. -/
def Plain (text : String) : Prop := ∀ c ∈ text.toList, isDelimiter c = false

instance (text : String) : Decidable (Plain text) :=
  decidable_of_iff ((text.toList.all fun c => !isDelimiter c) = true) (by simp [Plain])

/-- All lexemes and texts are plain, and no operator of one operand is spelled like a grouping. -/
def Legible : Skeleton → Prop
  | binary left operator right => left.Legible ∧ Plain operator ∧ right.Legible
  | group inner => inner.Legible
  | literal text => Plain text
  | unary operator right => Plain operator ∧ operator ≠ "group" ∧ right.Legible

def chars : Skeleton → List Char
  | binary left operator right =>
    '(' :: (operator.toList ++ ' ' :: (left.chars ++ ' ' :: (right.chars ++ [')'])))
  | group inner => '(' :: ("group".toList ++ ' ' :: (inner.chars ++ [')']))
  | literal text => text.toList
  | unary operator right => '(' :: (operator.toList ++ ' ' :: (right.chars ++ [')']))

end Skeleton

theorem Expr.toList_print (e : Expr) : e.print.toList = e.skeleton.chars := by
  induction e with
  | binary left operator right ihl ihr =>
    simp [print, parenthesize, skeleton, Skeleton.chars, ihl, ihr]
  | group inner ih => simp [print, parenthesize, skeleton, Skeleton.chars, ih]
  | literal value => rfl
  | unary operator right ih => simp [print, parenthesize, skeleton, Skeleton.chars, ih]

namespace Skeleton

/-! ### Lexemes and texts -/

/-- What can stand after a printed expression: nothing, another operand or the end of a bracket. -/
def Follows (rest : List Char) : Prop := ∀ c ∈ rest.head?, c = ' ' ∨ c = ')'

theorem follows_nil : Follows [] := nofun

theorem follows_space (rest : List Char) : Follows (' ' :: rest) := by
  intro c hc
  cases hc
  exact .inl rfl

theorem follows_close (rest : List Char) : Follows (')' :: rest) := by
  intro c hc
  cases hc
  exact .inr rfl

theorem Follows.isDelimiter {rest : List Char} (h : Follows rest) :
    ∀ c ∈ rest.head?, isDelimiter c = true := by
  intro c hc
  rcases h c hc with space | close
  · rw [space]
    rfl
  · rw [close]
    rfl

section Texts

variable {text text' : String} {rest rest' : List Char}

theorem Plain.cancel (h : Plain text) (h' : Plain text')
    (hrest : ∀ c ∈ rest.head?, isDelimiter c = true)
    (hrest' : ∀ c ∈ rest'.head?, isDelimiter c = true)
    (same : text.toList ++ rest = text'.toList ++ rest') : text = text' ∧ rest = rest' := by
  have runs := Lexical.run_unique (p := fun c => !isDelimiter c) (by simpa [Plain] using h)
    (by simpa using hrest) (by simpa [Plain] using h') (by simpa using hrest') same
  exact ⟨String.toList_inj.mp runs.1, runs.2⟩

/-- Even an empty text does not look like the start of a bracket. -/
theorem Plain.append_ne_open (h : Plain text) (hrest : Follows rest) (tail : List Char) :
    text.toList ++ rest ≠ '(' :: tail := by
  intro same
  cases chars : text.toList with
  | nil =>
    rw [chars, List.nil_append] at same
    rcases hrest '(' (by rw [same]; rfl) with space | close
    · contradiction
    · contradiction
  | cons c cs =>
    rw [chars] at same
    have first : c = '(' := (List.cons.inj same).1
    have plain := h c (by rw [chars]; exact List.mem_cons_self)
    rw [first] at plain
    contradiction

end Texts

/-! ### Whole skeletons -/

/-- Printed before a text, the skeleton is not mistaken for another one before another text. -/
def Cancels (s : Skeleton) : Prop :=
  ∀ t : Skeleton, t.Legible → ∀ rest rest', Follows rest → Follows rest' →
    s.chars ++ rest = t.chars ++ rest' → s = t ∧ rest = rest'

theorem cancels_literal {text : String} (h : Plain text) : Cancels (literal text) := by
  intro t ht rest rest' hrest hrest' same
  cases t with
  | literal text' =>
    obtain ⟨texts, rests⟩ := h.cancel ht hrest.isDelimiter hrest'.isDelimiter same
    exact ⟨congrArg literal texts, rests⟩
  | binary left operator right => exact absurd same (h.append_ne_open hrest _)
  | group inner => exact absurd same (h.append_ne_open hrest _)
  | unary operator right => exact absurd same (h.append_ne_open hrest _)

section Brackets

variable {name : String} {first t : Skeleton} {tail rest rest' : List Char}

/-- A bracket shows its name and its first operand, and the character after that operand tells
whether there is a second one. -/
theorem Cancels.of_bracket (hfirst : first.Cancels) (hname : Plain name) (htail : Follows tail)
    (ht : t.Legible) (hrest' : Follows rest')
    (same : '(' :: (name.toList ++ ' ' :: (first.chars ++ tail)) = t.chars ++ rest') :
    (∃ right, t = binary first name right ∧ right.Legible
        ∧ tail = ' ' :: (right.chars ++ ')' :: rest'))
      ∨ (t = group first ∧ name = "group" ∧ tail = ')' :: rest')
      ∨ (t = unary name first ∧ name ≠ "group" ∧ tail = ')' :: rest') := by
  have space (rest : List Char) : ∀ c ∈ (' ' :: rest).head?, isDelimiter c = true :=
    (follows_space rest).isDelimiter
  cases t with
  | literal text => exact absurd same.symm (ht.append_ne_open hrest' _)
  | binary left operator right =>
    obtain ⟨hleft, hoperator, hright⟩ := ht
    simp only [chars, List.cons_append, List.append_assoc, List.nil_append] at same
    obtain ⟨rfl, inside⟩ :=
      hname.cancel hoperator (space _) (space _) (List.cons.inj same).2
    obtain ⟨rfl, after⟩ :=
      hfirst left hleft _ _ htail (follows_space _) (List.cons.inj inside).2
    exact .inl ⟨right, rfl, hright, after⟩
  | group inner =>
    have plain : Plain "group" := by decide
    simp only [chars, List.cons_append, List.append_assoc, List.nil_append] at same
    obtain ⟨rfl, inside⟩ := hname.cancel plain (space _) (space _) (List.cons.inj same).2
    obtain ⟨rfl, after⟩ := hfirst inner ht _ _ htail (follows_close _) (List.cons.inj inside).2
    exact .inr (.inl ⟨rfl, rfl, after⟩)
  | unary operator right =>
    obtain ⟨hoperator, notGroup, hright⟩ := ht
    simp only [chars, List.cons_append, List.append_assoc, List.nil_append] at same
    obtain ⟨rfl, inside⟩ :=
      hname.cancel hoperator (space _) (space _) (List.cons.inj same).2
    obtain ⟨rfl, after⟩ :=
      hfirst right hright _ _ htail (follows_close _) (List.cons.inj inside).2
    exact .inr (.inr ⟨rfl, notGroup, after⟩)

end Brackets

theorem cancels_binary {left right : Skeleton} {operator : String} (hleft : left.Cancels)
    (hoperator : Plain operator) (hright : right.Cancels) :
    Cancels (binary left operator right) := by
  intro t ht rest rest' hrest hrest' same
  simp only [chars, List.cons_append, List.append_assoc, List.nil_append] at same
  rcases hleft.of_bracket hoperator (follows_space _) ht hrest' same with
    ⟨right', rfl, hright', after⟩ | ⟨_, _, after⟩ | ⟨_, _, after⟩
  · obtain ⟨rfl, close⟩ :=
      hright right' hright' _ _ (follows_close _) (follows_close _) (List.cons.inj after).2
    exact ⟨rfl, (List.cons.inj close).2⟩
  · exact absurd (List.cons.inj after).1 (by decide)
  · exact absurd (List.cons.inj after).1 (by decide)

theorem cancels_group {inner : Skeleton} (hinner : inner.Cancels) : Cancels (group inner) := by
  intro t ht rest rest' hrest hrest' same
  have plain : Plain "group" := by decide
  simp only [chars, List.cons_append, List.append_assoc, List.nil_append] at same
  rcases hinner.of_bracket plain (follows_close _) ht hrest' same with
    ⟨_, _, _, after⟩ | ⟨rfl, _, after⟩ | ⟨_, other, _⟩
  · exact absurd (List.cons.inj after).1 (by decide)
  · exact ⟨rfl, (List.cons.inj after).2⟩
  · exact absurd rfl other

theorem cancels_unary {operator : String} {right : Skeleton} (hoperator : Plain operator)
    (notGroup : operator ≠ "group") (hright : right.Cancels) : Cancels (unary operator right) := by
  intro t ht rest rest' hrest hrest' same
  simp only [chars, List.cons_append, List.append_assoc, List.nil_append] at same
  rcases hright.of_bracket hoperator (follows_close _) ht hrest' same with
    ⟨_, _, _, after⟩ | ⟨_, group, _⟩ | ⟨rfl, _, after⟩
  · exact absurd (List.cons.inj after).1 (by decide)
  · exact absurd group notGroup
  · exact ⟨rfl, (List.cons.inj after).2⟩

theorem cancels {s : Skeleton} (h : s.Legible) : s.Cancels := by
  induction s with
  | binary left operator right ihl ihr => exact cancels_binary (ihl h.1) h.2.1 (ihr h.2.2)
  | group inner ih => exact cancels_group (ih h)
  | literal text => exact cancels_literal h
  | unary operator right ih => exact cancels_unary h.1 h.2.1 (ih h.2.2)

end Skeleton

namespace Expr

/-- Two expressions are printed alike just if they have the same skeleton. -/
theorem print_eq_iff {a b : Expr} (ha : a.skeleton.Legible) (hb : b.skeleton.Legible) :
    a.print = b.print ↔ a.skeleton = b.skeleton := by
  rw [← String.toList_inj, toList_print, toList_print]
  constructor
  · intro same
    have closed := Skeleton.cancels ha _ hb [] [] Skeleton.follows_nil Skeleton.follows_nil
      (by rw [same])
    exact closed.1
  · intro same
    rw [same]

/-- An empty operand, and operators and values of different kinds that are written alike. -/
theorem print_eq_iff_emptyText :
    (unary ⟨.minus, "-", none, 1⟩ (binary (literal (.text "")) ⟨.star, "*", none, 1⟩
        (literal .nul))).skeleton.Legible
      ∧ (unary ⟨.bang, "-", some (.text "x"), 2⟩ (binary (literal (.text ""))
        ⟨.identifier, "*", none, 3⟩ (literal (.text "nil")))).skeleton.Legible
      ∧ (unary ⟨.minus, "-", none, 1⟩ (binary (literal (.text "")) ⟨.star, "*", none, 1⟩
          (literal .nul))).print
        = (unary ⟨.bang, "-", some (.text "x"), 2⟩ (binary (literal (.text ""))
          ⟨.identifier, "*", none, 3⟩ (literal (.text "nil")))).print := by
  have legible : (Skeleton.unary "-" (.binary (.literal "") "*" (.literal "nil"))).Legible :=
    ⟨by decide, by decide, (by decide : Skeleton.Plain ""), by decide,
      (by decide : Skeleton.Plain "nil")⟩
  refine ⟨legible, legible, (print_eq_iff ?_ ?_).mpr rfl⟩
  · exact legible
  · exact legible

end Expr

end Lox
