import Lox.Binary64.Decimal
import Mathlib.Data.Rat.Floor
import Mathlib.Tactic.FieldSimp
import Mathlib.Tactic.Linarith

/-!
# Magnitudes in order

What it means that a number is the nearest one to a rational, said of the values alone.  `Rounded` is
rounding to nearest with ties to even, as IEEE 754 has it for a rational that is not negative.  It says
nothing about how the number is found.

Magnitudes stand in the order of their values, and the values lie on grids: from the `s`-th binade on,
every value is a multiple of 2ˢ (`unitsOf_multiple_or_lt`).  `Nearest` says that a magnitude is the
nearest one to a number of units, a tie going to the even one, where the magnitudes go on beyond infinity
as if the exponent had no bound.  Such a magnitude is found by comparing with the midpoints between
neighbours (`Nearest.lt_iff_of_even`, `Nearest.lt_iff_of_odd`), so it follows the number of units in
order.
-/

namespace Lox

/-! ### The nearest number -/

namespace Binary64

def isFinite (x : Binary64) : Bool := x.magnitude < infiniteMagnitude

/-- The exact value of a finite number. -/
def value (x : Binary64) : ℚ :=
  if x.isNegative then -(x.units / unitsPerOne) else x.units / unitsPerOne

/-- The number is without sign and the nearest to `q`, or infinity if `q` is not less than what lies
halfway between the greatest finite number and the next power of two.  Where another number is as near,
the last bit of this one is zero. -/
structure Rounded (q : ℚ) (x : Binary64) : Prop where
  isNegative : x.isNegative = false
  isNaN : x.isNaN = false
  isInfinite : x.isInfinite = true ↔ 2 ^ 1024 - 2 ^ 970 ≤ q
  nearest : x.isFinite = true → ∀ y : Binary64, y.isFinite = true →
    |q - x.value| ≤ |q - y.value|
  even : x.isFinite = true → ∀ y : Binary64, y.isFinite = true → y.value ≠ x.value →
    |q - y.value| = |q - x.value| → x.bits.toNat % 2 = 0

/-- The order of numbers without sign, of which infinity is the greatest. -/
def AtMost (x y : Binary64) : Prop :=
  y.isInfinite = true ∨ x.isFinite = true ∧ y.isFinite = true ∧ x.value ≤ y.value

end Binary64

namespace Decimal

def value (d : Decimal) : ℚ := d.coefficient * 10 ^ d.exponent

end Decimal

end Lox

namespace Lox.Binary64

/-! ### Powers of two -/

theorem twoTo_pos (n : ℕ) : 0 < twoTo n := Nat.pow_pos (by decide)

theorem twoTo_add (m n : ℕ) : twoTo (m + n) = twoTo m * twoTo n := Nat.pow_add 2 m n

theorem cast_twoTo (n : ℕ) : (twoTo n : ℚ) = 2 ^ n := Nat.cast_pow 2 n

theorem fractionCount_eq : fractionCount = twoTo 52 := by decide

/-! ### Binades -/

/-- The significand `k` at the shift `s`, up to the first one of the next binade. -/
theorem unitsOf_add {s k : ℕ} (normal : s = 0 ∨ fractionCount ≤ k) (hk : k ≤ 2 * fractionCount) :
    unitsOf (s * fractionCount + k) = k * twoTo s := by
  have positive : 0 < fractionCount := by decide
  by_cases small : k < fractionCount
  · obtain rfl : s = 0 := normal.resolve_right (by omega)
    rw [Nat.zero_mul, Nat.zero_add, unitsOf_of_lt small, twoTo_zero, Nat.mul_one]
  · have large : ¬ s * fractionCount + k < fractionCount := by omega
    rw [unitsOf, if_neg large]
    by_cases last : k = 2 * fractionCount
    · have next : s * fractionCount + k = fractionCount * (s + 2) := by rw [last]; ring
      rw [next, Nat.mul_mod_right, Nat.mul_div_cancel_left _ positive, last]
      show (fractionCount + 0) * twoTo (s + 1) = _
      rw [twoTo_succ]
      ring
    · obtain ⟨j, rfl⟩ := Nat.exists_eq_add_of_le (Nat.le_of_not_lt small)
      have hj : j < fractionCount := by omega
      have inside : s * fractionCount + (fractionCount + j) = j + fractionCount * (s + 1) := by ring
      rw [inside, Nat.add_mul_mod_self_left, Nat.mod_eq_of_lt hj, Nat.add_mul_div_left _ _ positive,
        Nat.div_eq_of_lt hj, Nat.zero_add, Nat.add_sub_cancel]

theorem exists_parts (m : ℕ) :
    ∃ s k, m = s * fractionCount + k ∧ (s = 0 ∨ fractionCount ≤ k) ∧ k < 2 * fractionCount := by
  have positive : 0 < fractionCount := by decide
  by_cases small : m < fractionCount
  · exact ⟨0, m, by simp, .inl rfl, by omega⟩
  · have whole := Nat.div_add_mod' m fractionCount
    have part := Nat.mod_lt m positive
    obtain ⟨s, hs⟩ : ∃ s, m / fractionCount = s + 1 :=
      Nat.exists_eq_succ_of_ne_zero (Nat.div_pos (by omega) positive).ne'
    refine ⟨s, fractionCount + m % fractionCount, ?_, .inr (by omega), by omega⟩
    rw [hs, Nat.add_mul] at whole
    omega

theorem strictMono_unitsOf : StrictMono unitsOf := by
  refine strictMono_nat_of_lt_succ ?_
  intro m
  obtain ⟨s, k, rfl, normal, hk⟩ := exists_parts m
  have normal' : s = 0 ∨ fractionCount ≤ k + 1 := normal.imp_right fun h => by omega
  rw [unitsOf_add normal (by omega), Nat.add_assoc, unitsOf_add normal' (by omega)]
  exact Nat.mul_lt_mul_of_pos_right (Nat.lt_succ_self k) (twoTo_pos s)

/-- A value that is not on the grid of a binade lies before the binade. -/
theorem unitsOf_multiple_or_lt (s m : ℕ) :
    (∃ j, unitsOf m = j * twoTo s) ∨ 0 < s ∧ unitsOf m < fractionCount * twoTo s := by
  obtain ⟨t, k, rfl, normal, hk⟩ := exists_parts m
  rw [unitsOf_add normal hk.le]
  by_cases fine : t < s
  · obtain ⟨i, rfl⟩ := Nat.exists_eq_add_of_lt fine
    refine .inr ⟨by omega, ?_⟩
    calc k * twoTo t < 2 * fractionCount * twoTo t := Nat.mul_lt_mul_of_pos_right hk (twoTo_pos t)
      _ ≤ 2 * fractionCount * twoTo t * twoTo i := Nat.le_mul_of_pos_right _ (twoTo_pos i)
      _ = fractionCount * twoTo (t + i + 1) := by rw [twoTo_succ, twoTo_add]; ring
  · obtain ⟨i, rfl⟩ := Nat.exists_eq_add_of_le (Nat.le_of_not_lt fine)
    refine .inl ⟨k * twoTo i, ?_⟩
    rw [twoTo_add]
    ring

/-! ### The nearest magnitude -/

/-- No magnitude is nearer to `u` units, and if another one is as near then this one is even. -/
structure Nearest (u : ℚ) (m : ℕ) : Prop where
  nearest : ∀ other, |u - unitsOf m| ≤ |u - unitsOf other|
  even : ∀ other, other ≠ m → |u - unitsOf other| = |u - unitsOf m| → m % 2 = 0

section Points

variable {a b u : ℚ} (h : a < b)

include h

/-- The lower of two points is as near just if the middle is not passed. -/
theorem abs_sub_lower_le_iff : |u - a| ≤ |u - b| ↔ 2 * u ≤ a + b := by
  have factors : (u - b) ^ 2 - (u - a) ^ 2 = (b - a) * (a + b - 2 * u) := by ring
  rw [← sq_le_sq, ← sub_nonneg, factors, mul_nonneg_iff_of_pos_left (sub_pos.mpr h), sub_nonneg]

theorem abs_sub_upper_le_iff : |u - b| ≤ |u - a| ↔ a + b ≤ 2 * u := by
  have factors : (u - a) ^ 2 - (u - b) ^ 2 = (b - a) * (2 * u - (a + b)) := by ring
  rw [← sq_le_sq, ← sub_nonneg, factors, mul_nonneg_iff_of_pos_left (sub_pos.mpr h), sub_nonneg]

theorem abs_sub_eq_iff : |u - a| = |u - b| ↔ 2 * u = a + b := by
  rw [le_antisymm_iff, le_antisymm_iff, abs_sub_lower_le_iff h, abs_sub_upper_le_iff h]

end Points

theorem cast_unitsOf_lt {m n : ℕ} : (unitsOf m : ℚ) < unitsOf n ↔ m < n := by
  rw [Nat.cast_lt, strictMono_unitsOf.lt_iff_lt]

theorem cast_unitsOf_le {m n : ℕ} : (unitsOf m : ℚ) ≤ unitsOf n ↔ m ≤ n := by
  rw [Nat.cast_le, strictMono_unitsOf.le_iff_le]

/-- Twice the point halfway between a magnitude and the next one. -/
def midpoint (k : ℕ) : ℕ := unitsOf k + unitsOf (k + 1)

namespace Nearest

variable {u u' : ℚ} {k m m' : ℕ}

theorem midpoint_le_of_lt (h : Nearest u m) (hk : k < m) : midpoint k ≤ 2 * u := by
  have passed := (abs_sub_upper_le_iff (cast_unitsOf_lt.mpr hk)).mp (h.nearest k)
  have upper : (unitsOf (k + 1) : ℚ) ≤ unitsOf m := cast_unitsOf_le.mpr hk
  rw [midpoint, Nat.cast_add]
  linarith

theorem le_midpoint_of_le (h : Nearest u m) (hm : m ≤ k) : 2 * u ≤ midpoint k := by
  have before : (unitsOf m : ℚ) < unitsOf (k + 1) := cast_unitsOf_lt.mpr (by omega)
  have passed := (abs_sub_lower_le_iff before).mp (h.nearest (k + 1))
  have lower : (unitsOf m : ℚ) ≤ unitsOf k := cast_unitsOf_le.mpr hm
  rw [midpoint, Nat.cast_add]
  linarith

/-- A number of units halfway between two neighbours goes to the even one. -/
theorem of_midpoint (h : Nearest u m) (half : 2 * u = midpoint k) :
    m = if k % 2 = 0 then k else k + 1 := by
  rw [midpoint, Nat.cast_add] at half
  have upper : (unitsOf k : ℚ) < unitsOf (k + 1) := cast_unitsOf_lt.mpr (Nat.lt_succ_self k)
  have tie : |u - unitsOf k| = |u - unitsOf (k + 1)| := (abs_sub_eq_iff upper).mpr half
  have low : k ≤ m := by
    by_contra below
    have lower : (unitsOf m : ℚ) < unitsOf k := cast_unitsOf_lt.mpr (Nat.lt_of_not_le below)
    have passed := (abs_sub_lower_le_iff lower).mp (h.nearest k)
    linarith
  have high : m ≤ k + 1 := by
    by_contra above
    have lower : (unitsOf (k + 1) : ℚ) < unitsOf m := cast_unitsOf_lt.mpr (Nat.lt_of_not_le above)
    have passed := (abs_sub_upper_le_iff lower).mp (h.nearest (k + 1))
    linarith
  obtain rfl | rfl : m = k ∨ m = k + 1 := by omega
  · rw [if_pos (h.even (m + 1) (Nat.succ_ne_self m) tie.symm)]
  · have even := h.even k (Nat.succ_ne_self k).symm tie
    rw [if_neg (by omega)]

theorem lt_iff_of_even (h : Nearest u m) (even : k % 2 = 0) : k < m ↔ midpoint k < 2 * u := by
  constructor
  · intro hk
    refine lt_of_le_of_ne (h.midpoint_le_of_lt hk) ?_
    intro half
    have tie := h.of_midpoint half.symm
    rw [if_pos even] at tie
    omega
  · intro passed
    by_contra hm
    have before := h.le_midpoint_of_le (Nat.le_of_not_lt hm)
    linarith

theorem lt_iff_of_odd (h : Nearest u m) (odd : k % 2 = 1) : k < m ↔ midpoint k ≤ 2 * u := by
  constructor
  · exact h.midpoint_le_of_lt
  · intro passed
    by_contra hm
    have half := le_antisymm (h.le_midpoint_of_le (Nat.le_of_not_lt hm)) passed
    have tie := h.of_midpoint half
    rw [if_neg (by omega)] at tie
    omega

/-- The nearest magnitude follows the number of units in order. -/
theorem mono (h : Nearest u m) (h' : Nearest u' m') (le : u ≤ u') : m ≤ m' := by
  by_contra less
  have passed : m' < m := Nat.lt_of_not_le less
  rcases Nat.mod_two_eq_zero_or_one m' with even | odd
  · have here := (h.lt_iff_of_even even).mp passed
    have there : m' < m' := (h'.lt_iff_of_even even).mpr (by linarith)
    exact Nat.lt_irrefl m' there
  · have here := (h.lt_iff_of_odd odd).mp passed
    have there : m' < m' := (h'.lt_iff_of_odd odd).mpr (by linarith)
    exact Nat.lt_irrefl m' there

theorem unique (h : Nearest u m) (h' : Nearest u m') : m = m' :=
  Nat.le_antisymm (h.mono h' le_rfl) (h'.mono h le_rfl)

end Nearest

theorem nearest_unitsOf (m : ℕ) : Nearest (unitsOf m) m := by
  constructor
  · intro other
    rw [sub_self, abs_zero]
    exact abs_nonneg _
  · intro other differs same
    rw [sub_self, abs_zero, abs_eq_zero, sub_eq_zero, Nat.cast_inj] at same
    exact absurd (strictMono_unitsOf.injective same).symm differs

end Lox.Binary64
