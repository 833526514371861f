import Lox.Binary64.Basic

/-!
# Decimal numbers

A decimal is a coefficient times a power of ten.  It is read from a text of digits, rounded to the
nearest binary number (`number` decodes a lexeme so), and written in plain or in scientific form.

Among the decimals that round to a given number, `shortest` takes one with the fewest digits, and
of those the one nearest to the number; where two are equally near, the greater.  A decimal of `n`
digits is a point of a grid, and if any point of that grid rounds to the number then one of its two
neighbours does, so only these are tried, for one digit, two digits and so on.

Numbers are written with the fewest digits that read back.  The plain form serves zero and all
magnitudes from 10⁻⁴ up to, but not including, 10¹⁶, and it always shows a fraction (`123.0`); the
scientific form serves the rest (`1e16`, `1.5e-7`).  NaN has no sign.
-/

namespace Lox

def tenTo (n : Nat) : Nat := Nat.pow 10 n

structure Decimal where
  coefficient : Nat
  exponent : Int
  deriving DecidableEq, Repr

namespace Decimal

def round (x : Decimal) : Binary64 :=
  if x.exponent < 0 then Binary64.ofRatio x.coefficient (tenTo x.exponent.natAbs)
  else Binary64.ofRatio (x.coefficient * tenTo x.exponent.natAbs) 1

theorem isNaN_round (x : Decimal) : x.round.isNaN = false := by
  unfold round
  split <;> exact Binary64.isNaN_ofRatio _ _

/-- The same number with no zero at the end of its coefficient. -/
def trim (x : Decimal) : Decimal :=
  if x.coefficient ≠ 0 ∧ x.coefficient % 10 = 0 then
    trim ⟨x.coefficient / 10, x.exponent + 1⟩
  else x
termination_by x.coefficient
decreasing_by omega

/-! ### Reading -/

def ofDigits (whole fraction : List Char) : Decimal :=
  ⟨Nat.ofDigitChars 10 (whole ++ fraction) 0, -fraction.length⟩

def ofText (text : List Char) : Decimal :=
  ofDigits (text.takeWhile (· != '.')) ((text.dropWhile (· != '.')).drop 1)

/-! ### Writing -/

def plain (x : Decimal) : List Char :=
  if x.exponent < 0 then
    let one := tenTo x.exponent.natAbs
    Nat.toDigits 10 (x.coefficient / one)
      ++ '.' :: (Nat.toDigits 10 (one + x.coefficient % one)).drop 1
  else Nat.toDigits 10 (x.coefficient * tenTo x.exponent.natAbs) ++ ['.', '0']

/-- The form with one digit before the point, no point after which nothing follows, and the power
of ten after an `e`. -/
def scientific (x : Decimal) : List Char :=
  let digits := Nat.toDigits 10 x.coefficient
  let places := digits.drop 1
  let power := x.exponent + places.length
  digits.take 1 ++ (if places.isEmpty then [] else '.' :: places)
    ++ 'e' :: (if power < 0 then ['-'] else []) ++ Nat.toDigits 10 power.natAbs

end Decimal

namespace Binary64

/-! ### The shortest decimal of a binary number -/

/-- Decimal places at which even the least magnitude has seventeen digits before the point. -/
def finestPlaces : Nat := 341

def IsReadFrom (x : Binary64) (d : Decimal) : Prop := d.round.magnitude = x.magnitude

instance (x : Binary64) (d : Decimal) : Decidable (x.IsReadFrom d) :=
  inferInstanceAs (Decidable (_ = _))

/-- The neighbour that rounds to this magnitude, on the grid whose points lie `10 ^ step` of the
finest places apart; the nearer if both do, and the upper one if they are equally near. -/
def neighbour? (x : Binary64) (step : Nat) : Option Decimal :=
  let spacing := tenTo step * unitsPerOne
  let position := x.units * tenTo finestPlaces
  let lower : Decimal := ⟨position / spacing, (step : Int) - finestPlaces⟩
  let upper : Decimal := ⟨position / spacing + 1, (step : Int) - finestPlaces⟩
  if x.IsReadFrom lower then
    if x.IsReadFrom upper ∧ spacing ≤ 2 * (position % spacing) then some upper else some lower
  else if x.IsReadFrom upper then some upper
  else none

def exact (x : Binary64) : Decimal := ⟨x.units * Nat.pow 5 1074, -1074⟩

/-- The step of the coarsest grid worth trying, in which the magnitude has at most one digit.  A
power of two has about 0.30103 decimal digits for each binary one; should this be a little too
coarse, the first grids have no point near the magnitude, or one that is as good as any. -/
def coarsestStep (x : Binary64) : Nat :=
  (x.units * tenTo finestPlaces / unitsPerOne).log2 * 30103 / 100000 + 1

def gridCount : Nat := 19

/-- The shortest decimal that rounds to the magnitude of a finite number. -/
def shortest (x : Binary64) : Decimal :=
  if x.isZero then ⟨0, 0⟩
  else
    let coarsest := x.coarsestStep
    let found := (List.range gridCount).findSome? fun n => x.neighbour? (coarsest - n)
    (found.getD x.exact).trim

/-! ### The text of a number -/

/-- The least magnitude, zero apart, that is written in plain form. -/
def leastPlain : Nat := (ofRatio 1 (tenTo 4)).magnitude

def plainLimit : Nat := (ofRatio (tenTo 16) 1).magnitude

def isPlain (x : Binary64) : Bool :=
  x.isZero || leastPlain ≤ x.magnitude && x.magnitude < plainLimit

def digitsText (x : Binary64) : List Char :=
  if x.isPlain then x.shortest.plain else x.shortest.scientific

def text (x : Binary64) : String :=
  if x.isNaN then "NaN"
  else (if x.isNegative then "-" else "")
    ++ (if x.isInfinite then "inf" else String.ofList x.digitsText)

end Binary64

end Lox
