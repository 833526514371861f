import Lox.Binary64.Decimal

/-!
# Tokens

Sixteen words are reserved (`keyword`).  A word is looked up by its exact spelling, so case matters and
no longer word is reserved; `keyword?_spelling` says that each spelling finds its own word.

A kind (`TokenType`) is what the grammar sees of a token.  Each has a name in capitals, which is how a
token is listed; a reserved word is named by its own spelling.

A token (`Token`, `Literal`) is a kind, the lexeme it was read from, the value that the lexeme stands
for if it is a string or a number, and the line on which the lexeme ends.  Equality (`==`) compares all
four, and numbers by IEEE 754; hence a token that carries NaN differs from itself.
-/

namespace Lox

/-! ### The reserved words -/

inductive Keyword where
  | andWord | classWord | elseWord | falseWord | forWord | funWord | ifWord | nulWord
  | orWord | printWord | returnWord | superWord | thisWord | trueWord | varWord | whileWord
  deriving DecidableEq, Repr

namespace Keyword

def spelling : Keyword → String
  | andWord => "and"
  | classWord => "class"
  | elseWord => "else"
  | falseWord => "false"
  | forWord => "for"
  | funWord => "fun"
  | ifWord => "if"
  | nulWord => "nul"
  | orWord => "or"
  | printWord => "print"
  | returnWord => "return"
  | superWord => "super"
  | thisWord => "this"
  | trueWord => "true"
  | varWord => "var"
  | whileWord => "while"

def all : List Keyword :=
  [andWord, classWord, elseWord, falseWord, forWord, funWord, ifWord, nulWord,
    orWord, printWord, returnWord, superWord, thisWord, trueWord, varWord, whileWord]

theorem mem_all (w : Keyword) : w ∈ all := by
  cases w <;> decide

end Keyword

/-- The reserved word with exactly this spelling, if there is one. -/
def keyword? (word : String) : Option Keyword :=
  Keyword.all.find? fun w => w.spelling == word

theorem keyword?_spelling (w : Keyword) : keyword? w.spelling = some w := by
  cases w <;> decide

theorem spelling_of_keyword? {word : String} {w : Keyword} (h : keyword? word = some w) :
    w.spelling = word := by
  have found := List.find?_some h
  simpa using found

theorem keyword?_eq_some_iff {word : String} {w : Keyword} :
    keyword? word = some w ↔ w.spelling = word :=
  ⟨spelling_of_keyword?, fun h => h ▸ keyword?_spelling w⟩

/-! ### Kinds -/

inductive Kind where
  | leftParen | rightParen | leftBrace | rightBrace
  | comma | dot | minus | plus | semicolon | slash | star
  | bang | bangEqual | equal | equalEqual | greater | greaterEqual | less | lessEqual
  | identifier | string | number
  | keyword (word : Keyword)
  | endOfSource
  deriving DecidableEq, Repr

namespace Kind

def name : Kind → String
  | leftParen => "LEFT_PAREN"
  | rightParen => "RIGHT_PAREN"
  | leftBrace => "LEFT_BRACE"
  | rightBrace => "RIGHT_BRACE"
  | comma => "COMMA"
  | dot => "DOT"
  | minus => "MINUS"
  | plus => "PLUS"
  | semicolon => "SEMICOLON"
  | slash => "SLASH"
  | star => "STAR"
  | bang => "BANG"
  | bangEqual => "BANG_EQUAL"
  | equal => "EQUAL"
  | equalEqual => "EQUAL_EQUAL"
  | greater => "GREATER"
  | greaterEqual => "GREATER_EQUAL"
  | less => "LESS"
  | lessEqual => "LESS_EQUAL"
  | identifier => "IDENTIFIER"
  | string => "STRING"
  | number => "NUMBER"
  | keyword w => String.ofList (w.spelling.toList.map Char.toUpper)
  | endOfSource => "EOF"

def all : List Kind :=
  [leftParen, rightParen, leftBrace, rightBrace, comma, dot, minus, plus, semicolon, slash, star,
    bang, bangEqual, equal, equalEqual, greater, greaterEqual, less, lessEqual,
    identifier, string, number] ++ Keyword.all.map keyword ++ [endOfSource]

theorem mem_all (k : Kind) : k ∈ all := by
  cases k with
  | keyword w => simp [all, Keyword.mem_all w]
  | _ => decide

/-- The kind of a word: its own if the word is reserved, else a plain identifier. -/
def ofWord (word : String) : Kind :=
  match keyword? word with
  | some w => keyword w
  | none => identifier

theorem ofWord_spelling (w : Keyword) : ofWord w.spelling = keyword w := by
  rw [ofWord, keyword?_spelling]

end Kind

/-! ### Tokens -/

inductive Literal where
  | text (value : String)
  | number (value : Binary64)
  deriving Repr

namespace Literal

/-- Strings are written as they are, numbers with the fewest digits that read back. -/
def render : Literal → String
  | text value => value
  | number value => value.text

/-- Texts compare character by character, numbers as IEEE 754 has it. -/
def equal : Literal → Literal → Bool
  | text a, text b => a == b
  | number a, number b => a == b
  | _, _ => false

instance : BEq Literal := ⟨equal⟩

end Literal

structure Token where
  kind : Kind
  lexeme : String
  literal : Option Literal
  line : UInt32
  deriving Repr

namespace Token

def endOfSource (line : UInt32) : Token := ⟨.endOfSource, "", none, line⟩

/-- The kind, then the lexeme unless it is empty, then the value if there is one. -/
def render (t : Token) : String :=
  t.kind.name
    ++ (if t.lexeme.isEmpty then "" else " " ++ t.lexeme)
    ++ (match t.literal with
      | none => ""
      | some value => " " ++ value.render)

def equal (a b : Token) : Bool :=
  a.kind == b.kind && a.lexeme == b.lexeme && a.literal == b.literal && a.line == b.line

instance : BEq Token := ⟨equal⟩

theorem render_endOfSource (line : UInt32) : (endOfSource line).render = "EOF" := by
  simp [render, endOfSource, Kind.name]

end Token

end Lox
