/-!
# Binary floating point numbers

A number is held as its 64 bits: a sign, eleven bits of exponent and 52 bits of fraction.  Every
finite magnitude is a whole number of units of 2⁻¹⁰⁷⁴, and `units` counts them.  Equality
(`==`) is that of IEEE 754, under which NaN differs from itself and the two zeros are equal;
identity (`=`) is that of the bits.

`ofRatio n d` is the number nearest to `n / d`, a tie going to the even fraction.  The quotient is
taken in units of 2⁻¹⁰⁷⁴ and brought to 53 significant bits.  Since the bits of a magnitude are
its exponent above its fraction, adding the rounded significand to the exponent carries a
significand of 54 bits, and the step out of the subnormal range, into the right bits by itself.
-/

namespace Lox

structure Binary64 where
  bits : UInt64
  deriving Repr, Inhabited

namespace Binary64

/-! ### Parts of a number -/

def fractionCount : Nat := 0x10000000000000

/-- The number of magnitudes, 2⁶³, which is also the weight of the sign bit. -/
def magnitudeCount : Nat := 0x8000000000000000

def magnitude (x : Binary64) : Nat := x.bits.toNat % magnitudeCount

def isNegative (x : Binary64) : Bool := magnitudeCount ≤ x.bits.toNat

/-- The magnitude of infinity: all exponent bits set and no fraction. -/
def infiniteMagnitude : Nat := 2047 * fractionCount

def ofMagnitude (m : Nat) : Binary64 := ⟨UInt64.ofNat m⟩

def infinity : Binary64 := ofMagnitude infiniteMagnitude

def isNaN (x : Binary64) : Bool := x.magnitude > infiniteMagnitude

def isInfinite (x : Binary64) : Bool := x.magnitude == infiniteMagnitude

def isZero (x : Binary64) : Bool := x.magnitude == 0

theorem magnitude_ofMagnitude {m : Nat} (h : m < magnitudeCount) :
    (ofMagnitude m).magnitude = m := by
  have toNat : (UInt64.ofNat m).toNat = m := UInt64.toNat_ofNat_of_lt' (by
    have : UInt64.size = 2 * magnitudeCount := rfl
    omega)
  rw [magnitude, ofMagnitude, toNat]
  exact Nat.mod_eq_of_lt h

/-! ### Value -/

def twoTo (n : Nat) : Nat := Nat.pow 2 n

@[simp] theorem twoTo_zero : twoTo 0 = 1 := rfl

theorem twoTo_succ (n : Nat) : twoTo (n + 1) = twoTo n * 2 := rfl

def unitsPerOne : Nat := twoTo 1074

/-- The finite value of a magnitude in units of 2⁻¹⁰⁷⁴.  A magnitude without exponent is its own
value; else the fraction has a leading one and is scaled by the exponent. -/
def unitsOf (m : Nat) : Nat :=
  if m < fractionCount then m
  else (fractionCount + m % fractionCount) * twoTo (m / fractionCount - 1)

/-- The absolute value in units of 2⁻¹⁰⁷⁴; of infinity, the power of two after the greatest
finite value. -/
def units (x : Binary64) : Nat := unitsOf x.magnitude

theorem unitsOf_of_lt {m : Nat} (h : m < fractionCount) : unitsOf m = m := if_pos h

/-! ### Comparison -/

def equal (x y : Binary64) : Bool :=
  !x.isNaN && !y.isNaN && (x.bits == y.bits || x.isZero && y.isZero)

instance : BEq Binary64 := ⟨equal⟩

theorem beq_self (x : Binary64) : (x == x) = !x.isNaN := by
  change equal x x = _
  simp [equal]

theorem beq_comm (x y : Binary64) : (x == y) = (y == x) := by
  change equal x y = equal y x
  simp only [equal, Bool.and_comm, BEq.comm (a := x.bits)]

/-! ### Rounding -/

/-- The whole number nearest to `n / d`, a tie going to the even one. -/
def nearestEven (n d : Nat) : Nat :=
  let q := n / d
  let r := n % d
  if 2 * r < d then q
  else if d < 2 * r then q + 1
  else q + q % 2

def nearestMagnitude (n d : Nat) : Nat :=
  let shift := (n / d).log2 - 52
  min (shift * fractionCount + nearestEven n (d * twoTo shift)) infiniteMagnitude

def ofRatio (n d : Nat) : Binary64 := ofMagnitude (nearestMagnitude (n * unitsPerOne) d)

theorem nearestMagnitude_le (n d : Nat) : nearestMagnitude n d ≤ infiniteMagnitude :=
  Nat.min_le_right _ _

theorem magnitude_ofRatio (n d : Nat) :
    (ofRatio n d).magnitude = nearestMagnitude (n * unitsPerOne) d := by
  refine magnitude_ofMagnitude ?_
  have := nearestMagnitude_le (n * unitsPerOne) d
  have : infiniteMagnitude < magnitudeCount := by decide
  omega

theorem isNaN_ofRatio (n d : Nat) : (ofRatio n d).isNaN = false := by
  have := nearestMagnitude_le (n * unitsPerOne) d
  simp only [isNaN, magnitude_ofRatio]
  simpa using this

end Binary64

end Lox
