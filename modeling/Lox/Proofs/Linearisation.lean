import Lox.Proofs.Glueing
import Lox.Proofs.Layout
import Lox.Proofs.Readability

/-!
# Printed expressions are scanned back

A printed expression can be scanned, if its operators are tokens and its values are written like tokens.
The scan gives its tokens in prefix form: the operator before its operands, each bracket around them,
and the word `group` where there is no operator.  Whatever the tokens are, a space, a parenthesis or the
end comes after each of them and goes on with none (`not_continues_of_follows`).
-/

namespace Lox

open Lexical

namespace Expr

/-- The operators are tokens of scans, and the text of every value is the lexeme of one. -/
def Scannable : Expr → Prop
  | binary left operator right => left.Scannable ∧ Produced operator ∧ right.Scannable
  | group inner => inner.Scannable
  | literal value => ∃ t, Produced t ∧ t.lexeme = value.render
  | unary operator right => Produced operator ∧ right.Scannable

/-! ### Tokens in prefix form -/

def openParen : Token := tokenOf .leftParen ['('] 1

def closeParen : Token := tokenOf .rightParen [')'] 1

def groupWord : Token := tokenOf .identifier "group".toList 1

/-- The tokens of an expression in prefix form.  Their lines are of no account. -/
inductive Linear : Expr → List Token → Prop
  | binary {left right : Expr} {operator : Token} {ts ts' : List Token} (hleft : Linear left ts)
      (hright : Linear right ts') :
      Linear (binary left operator right) (openParen :: operator :: (ts ++ ts' ++ [closeParen]))
  | group {inner : Expr} {ts : List Token} (hinner : Linear inner ts) :
      Linear (group inner) (openParen :: groupWord :: (ts ++ [closeParen]))
  | literal {value : Value} {t : Token} (produced : Produced t) (text : t.lexeme = value.render) :
      Linear (literal value) [t]
  | unary {operator : Token} {right : Expr} {ts : List Token} (hright : Linear right ts) :
      Linear (unary operator right) (openParen :: operator :: (ts ++ [closeParen]))

theorem exists_linear {e : Expr} (h : e.Scannable) : ∃ ts, e.Linear ts := by
  induction e with
  | binary left operator right ihl ihr =>
    obtain ⟨ts, hleft⟩ := ihl h.1
    obtain ⟨ts', hright⟩ := ihr h.2.2
    exact ⟨_, .binary hleft hright⟩
  | group inner ih =>
    obtain ⟨ts, hinner⟩ := ih h
    exact ⟨_, .group hinner⟩
  | literal value =>
    obtain ⟨t, produced, text⟩ := h
    exact ⟨_, .literal produced text⟩
  | unary operator right ih =>
    obtain ⟨ts, hright⟩ := ih h.2
    exact ⟨_, .unary hright⟩

end Expr

namespace Lexical

open Skeleton (Follows follows_nil follows_space follows_close)

/-! ### What comes after an expression -/

theorem not_continues_of_follows {kind : Kind} {characters rest : List Char} (h : Follows rest) :
    ¬ Continues kind characters rest := by
  cases rest with
  | nil => exact not_continues_nil kind characters
  | cons c rest =>
    rcases h c rfl with rfl | rfl
    · exact not_continues_of_detached (detached_cons rfl rest)
    · have opens : Opens ')' .rightParen := by decide
      rw [continues_cons_iff opens]
      rintro (fuses | ⟨_, _, other, _⟩)
      · cases kind <;> simp [Fuses, Kind.isWord] at fuses
      · contradiction

/-- Before all that can come after an expression, the text falls into segments of its own, and they
spell the tokens. -/
def Recovers (text : List Char) (ts : List Token) : Prop :=
  ∃ ss, Spells ss ts ∧ ∀ rest, Follows rest → segments (text ++ rest) = ss ++ segments rest

namespace Recovers

variable {text text' : List Char} {ts ts' : List Token}

theorem nil : Recovers [] [] := ⟨[], .nil, fun _ _ => rfl⟩

theorem lexeme {t : Token} (h : Wellformed t) : Recovers t.lexeme.toList [t] := by
  refine ⟨[segmentOf t], h.spells, ?_⟩
  intro rest hrest
  exact segments_append (h.isLexeme.endsBefore (not_continues_of_follows hrest))

theorem append (h : Recovers text ts) (h' : Recovers text' ts')
    (begins : ∀ rest, Follows (text' ++ rest)) : Recovers (text ++ text') (ts ++ ts') := by
  obtain ⟨ss, spells, cut⟩ := h
  obtain ⟨ss', spells', cut'⟩ := h'
  refine ⟨ss ++ ss', spells.append spells', ?_⟩
  intro rest hrest
  rw [List.append_assoc, cut _ (begins rest), cut' rest hrest, List.append_assoc]

/-- A segment that is complete before every text may have any text after it. -/
theorem after {s : Segment} (h : Recovers text ts) (here : Spells [s] ts')
    (ends : ∀ rest, s.EndsBefore rest) : Recovers (s.text ++ text) (ts' ++ ts) := by
  obtain ⟨ss, spells, cut⟩ := h
  refine ⟨[s] ++ ss, here.append spells, ?_⟩
  intro rest hrest
  rw [List.append_assoc, segments_append (ends _), cut rest hrest]
  rfl

theorem spaced (h : Recovers text ts) (h' : Recovers text' ts') :
    Recovers (text ++ ' ' :: text') (ts ++ ts') := by
  have later : Recovers (' ' :: text') ts' :=
    h'.after (s := .blank ' ') (.skip rfl rfl) fun _ => .blank rfl
  exact h.append later fun rest => follows_space (text' ++ rest)

theorem bracket (h : Recovers text ts) :
    Recovers ('(' :: (text ++ [')'])) (Expr.openParen :: (ts ++ [Expr.closeParen])) := by
  have spellsOpen : Spells [segmentOf Expr.openParen] [Expr.openParen] :=
    ⟨List.forall_mem_singleton.mpr rfl, rfl⟩
  have spellsClose : Spells [segmentOf Expr.closeParen] [Expr.closeParen] :=
    ⟨List.forall_mem_singleton.mpr rfl, rfl⟩
  have close : Recovers [')'] [Expr.closeParen] := nil.after spellsClose fun _ => .punctuator rfl
  exact (h.append close follows_close).after spellsOpen fun _ => .punctuator rfl

end Recovers

/-! ### Whole expressions -/

theorem recovers_groupWord : Recovers "group".toList [Expr.groupWord] := by
  have word : ∀ d ∈ "roup".toList, isWordChar d := List.all_eq_true.mp rfl
  have wellformed : Wellformed Expr.groupWord := ⟨⟨[], .word (c := 'g') rfl word nofun⟩, rfl⟩
  exact .lexeme wellformed

theorem recovers_chars {e : Expr} {ts : List Token} (scannable : e.Scannable) (h : e.Linear ts) :
    Recovers e.skeleton.chars ts := by
  induction h with
  | @binary left right operator ts ts' _ _ ihl ihr =>
    obtain ⟨hleft, produced, hright⟩ := scannable
    have operands := (ihl hleft).spaced (ihr hright)
    have inside := (Recovers.lexeme produced.wellformed).spaced operands
    simpa [Expr.skeleton, Skeleton.chars] using inside.bracket
  | @group inner ts _ ih =>
    have inside := recovers_groupWord.spaced (ih scannable)
    simpa [Expr.skeleton, Skeleton.chars] using inside.bracket
  | @literal value t produced text =>
    have alone := Recovers.lexeme produced.wellformed
    rw [text] at alone
    exact alone
  | @unary operator right ts _ ih =>
    obtain ⟨produced, hright⟩ := scannable
    have inside := (Recovers.lexeme produced.wellformed).spaced (ih hright)
    simpa [Expr.skeleton, Skeleton.chars] using inside.bracket

theorem yields_print {e : Expr} {ts : List Token} (scannable : e.Scannable) (h : e.Linear ts) :
    Yields e.print ts := by
  obtain ⟨ss, spells, cut⟩ := recovers_chars scannable h
  have whole := cut [] follows_nil
  rw [List.append_nil, segments_nil, List.append_nil] at whole
  rw [yields_iff, Expr.toList_print, whole]
  exact spells

/-- A printed expression is scanned back to its tokens in prefix form. -/
theorem scan_print {e : Expr} (scannable : e.Scannable) :
    (∃ ts, e.Linear ts) ∧ ∀ ts, e.Linear ts → Yields e.print ts :=
  ⟨Expr.exists_linear scannable, fun _ => yields_print scannable⟩

/-- A slash before an operand in brackets, a string of two lines, and the text of infinity, which is
scanned as a word. -/
theorem scan_print_slash :
    Expr.Scannable (.binary (.group (.literal (.text "\"a\nb\""))) (tokenOf .slash ['/'] 1)
        (.literal (.number .infinity)))
      ∧ Yields "(/ (group \"a\nb\") inf)"
        [Expr.openParen, tokenOf .slash ['/'] 1, Expr.openParen, Expr.groupWord,
          tokenOf .string ['"', 'a', '\n', 'b', '"'] 2, Expr.closeParen,
          tokenOf .identifier ['i', 'n', 'f'] 1, Expr.closeParen] := by
  have slash : Produced (tokenOf .slash ['/'] 1) := by
    have cut : segments "/@".toList = [.lexeme .slash ['/'], .foreign '@'] := by decide +kernel
    exact produced_of_cut cut List.mem_cons_self
  have string : Produced (tokenOf .string ['"', 'a', '\n', 'b', '"'] 2) := by
    have cut : segments "\"a\nb\"".toList = [.lexeme .string ['"', 'a', '\n', 'b', '"']] := by
      decide +kernel
    exact produced_of_cut cut List.mem_cons_self
  have word : Produced (tokenOf .identifier ['i', 'n', 'f'] 1) := by
    have cut : segments "inf".toList = [.lexeme .identifier ['i', 'n', 'f']] := by decide +kernel
    exact produced_of_cut cut List.mem_cons_self
  have infinity : (Value.number .infinity).render = "inf" := by decide
  have scannable : Expr.Scannable (.binary (.group (.literal (.text "\"a\nb\"")))
      (tokenOf .slash ['/'] 1) (.literal (.number .infinity))) :=
    ⟨⟨_, string, rfl⟩, slash, _, word, infinity.symm⟩
  have linear : Expr.Linear (.binary (.group (.literal (.text "\"a\nb\"")))
      (tokenOf .slash ['/'] 1) (.literal (.number .infinity))) _ :=
    .binary (.group (.literal string rfl)) (.literal word infinity.symm)
  exact ⟨scannable, (scan_print scannable).2 _ linear⟩

end Lexical

end Lox
