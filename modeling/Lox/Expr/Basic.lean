import Lox.Token.Basic

/-!
# Expressions

The syntax tree of an expression (`Expr`, `Value`).  Its operators are tokens and its leaves are values.
Trees are printed (`print`, `parenthesize`) in prefix form, fully parenthesised:
`(* (- 123.0) (group 45.67))`.  Equality (`==`) compares operators with all their parts and numbers by
IEEE 754.
-/

namespace Lox

inductive Value where
  | number (x : Binary64)
  | text (s : String)
  | boolean (b : Bool)
  | nul
  deriving Repr

namespace Value

def render : Value → String
  | number x => x.text
  | text s => s
  | boolean true => "true"
  | boolean false => "false"
  | nul => "nil"

/-- Values of two sorts are never equal. -/
def equal : Value → Value → Bool
  | number x, number y => x == y
  | text s, text t => s == t
  | boolean b, boolean c => b == c
  | nul, nul => true
  | _, _ => false

instance : BEq Value := ⟨equal⟩

end Value

inductive Expr where
  | binary (left : Expr) (operator : Token) (right : Expr)
  | group (inner : Expr)
  | literal (value : Value)
  | unary (operator : Token) (right : Expr)
  deriving Repr

namespace Expr

def parenthesize (name : String) (operands : List String) : String :=
  "(" ++ name ++ String.join (operands.map fun operand => " " ++ operand) ++ ")"

def print : Expr → String
  | binary left operator right => parenthesize operator.lexeme [left.print, right.print]
  | group inner => parenthesize "group" [inner.print]
  | literal value => value.render
  | unary operator right => parenthesize operator.lexeme [right.print]

def equal : Expr → Expr → Bool
  | binary l o r, binary l' o' r' => l.equal l' && o == o' && r.equal r'
  | group e, group e' => e.equal e'
  | literal v, literal v' => v == v'
  | unary o r, unary o' r' => o == o' && r.equal r'
  | _, _ => false

instance : BEq Expr := ⟨equal⟩

end Expr

end Lox
