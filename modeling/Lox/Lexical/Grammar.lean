import Lox.Lexical.Scan
import Mathlib.Computability.Language

/-!
# The lexical grammar

The grammar says which texts are lexemes, blanks and comments, and nothing about how they are found.
`Munch` is the rule that goes with it: the next piece of a source is the longest prefix of what
remains that the grammar knows; where it knows none, an opening quote takes all that remains and any
other character goes alone.
-/

namespace Lox.Lexical

open Computability

/-! ### Patterns -/

def oneOf (p : Char → Prop) : Language Char := {text | ∃ c, p c ∧ text = [c]}

def Digit (c : Char) : Prop := '0' ≤ c ∧ c ≤ '9'

def Letter (c : Char) : Prop := ('a' ≤ c ∧ c ≤ 'z') ∨ ('A' ≤ c ∧ c ≤ 'Z') ∨ c = '_'

/-- The lexemes that can be written in one way only, the reserved words apart. -/
def symbols : List (List Char × Kind) :=
  [(['('], .leftParen), ([')'], .rightParen), (['\x7b'], .leftBrace), (['\x7d'], .rightBrace),
    ([','], .comma), (['.'], .dot), (['-'], .minus), (['+'], .plus), ([';'], .semicolon),
    (['/'], .slash), (['*'], .star), (['!'], .bang), (['!', '='], .bangEqual), (['='], .equal),
    (['=', '='], .equalEqual), (['>'], .greater), (['>', '='], .greaterEqual), (['<'], .less),
    (['<', '='], .lessEqual)]

inductive Pattern where
  | blank
  | comment
  | symbol (kind : Kind)
  | word
  | number
  | string
  deriving DecidableEq, Repr

namespace Pattern

/-- The texts of a pattern. -/
def language : Pattern → Language Char
  | blank => oneOf fun c => c = ' ' ∨ c = '\t' ∨ c = '\r' ∨ c = '\n'
  | comment => {['/', '/']} * (oneOf (· ≠ '\n'))∗
  | symbol kind => {text | (text, kind) ∈ symbols}
  | word => oneOf Letter * (oneOf fun c => Letter c ∨ Digit c)∗
  | number => oneOf Digit * (oneOf Digit)∗ * (1 + {['.']} * (oneOf Digit * (oneOf Digit)∗))
  | string => {['"']} * (oneOf (· ≠ '"'))∗ * {['"']}

/-- The kind of a text of the pattern.  A word is reserved if it is the whole spelling of a keyword. -/
inductive Names : Pattern → List Char → Kind → Prop
  | symbol (kind : Kind) (text : List Char) : Names (symbol kind) text kind
  | reserved (w : Keyword) : Names word w.spelling.toList (.keyword w)
  | identifier (text : List Char) (h : ∀ w : Keyword, w.spelling.toList ≠ text) :
      Names word text .identifier
  | number (text : List Char) : Names number text .number
  | string (text : List Char) : Names string text .string

/-- The value of a text of the pattern: what stands between the quotes, or the nearest number. -/
inductive Carries : Pattern → List Char → Option Literal → Prop
  | symbol (kind : Kind) (text : List Char) : Carries (symbol kind) text none
  | word (text : List Char) : Carries word text none
  | number (text : List Char) :
      Carries number text (some (.number (Decimal.ofText text).round))
  | string (body : List Char) :
      Carries string ('"' :: body ++ ['"']) (some (.text (String.ofList body)))

structure Makes (p : Pattern) (text : List Char) (t : Token) : Prop where
  lexeme : t.lexeme = String.ofList text
  kind : p.Names text t.kind
  literal : p.Carries text t.literal

end Pattern

/-! ### The longest match -/

def Matches (text : List Char) : Prop := ∃ p : Pattern, text ∈ p.language

structure LongestMatch (source text : List Char) : Prop where
  starts : text <+: source
  fits : Matches text
  longest : ∀ other, other <+: source → Matches other → other.length ≤ text.length

inductive Piece where
  | matched (p : Pattern) (text : List Char)
  | openString (text : List Char)
  | foreign (c : Char)
  deriving DecidableEq, Repr

namespace Piece

def text : Piece → List Char
  | matched _ text => text
  | openString text => text
  | foreign c => [c]

def lexeme? : Piece → Option (Pattern × List Char)
  | matched .blank _ => none
  | matched .comment _ => none
  | matched p text => some (p, text)
  | openString _ => none
  | foreign _ => none

def complaint? : Piece → Option String
  | matched _ _ => none
  | openString _ => some "Unterminated string"
  | foreign c => some ("Unexpected character '" ++ c.toString ++ "'")

end Piece

/-- The pieces of a source, each as long as it can be. -/
inductive Munch : List Char → List Piece → Prop
  | done : Munch [] []
  | matched {p : Pattern} {text rest : List Char} {pieces : List Piece}
      (fits : text ∈ p.language) (longest : LongestMatch (text ++ rest) text)
      (later : Munch rest pieces) : Munch (text ++ rest) (.matched p text :: pieces)
  | openString {body : List Char} (none : ∀ text, text <+: '"' :: body → ¬ Matches text) :
      Munch ('"' :: body) [.openString ('"' :: body)]
  | foreign {c : Char} {rest : List Char} {pieces : List Piece} (other : c ≠ '"')
      (none : ∀ text, text <+: c :: rest → ¬ Matches text) (later : Munch rest pieces) :
      Munch (c :: rest) (.foreign c :: pieces)

end Lox.Lexical
