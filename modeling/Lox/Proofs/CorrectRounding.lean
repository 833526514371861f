import Lox.Proofs.Magnitudes
import Mathlib.Data.Nat.Cast.Order.Field

/-!
# Rounding is correct

`ofRatio` takes a quotient to the nearest whole number on the grid of its binade, and that is the nearest
magnitude of all.  Hence a decimal is read as the number that `Rounded` asks for.  There is only one such
number (`Rounded.unique`), so nothing but the value of the decimal matters to it.
-/

namespace Lox.Binary64

/-! ### The nearest whole number -/

section Whole

variable {n d : ℕ} (hd : 0 < d)

include hd

theorem cast_div_eq : (n : ℚ) / d = (n / d : ℕ) + (n % d : ℕ) / d := by
  have positive : (0 : ℚ) < d := Nat.cast_pos.mpr hd
  rw [div_eq_iff positive.ne', add_mul, div_mul_cancel₀ _ positive.ne']
  exact_mod_cast (Nat.div_add_mod' n d).symm

/-- The nearest whole number is at most one half away, and it is even if it is one half away. -/
theorem abs_sub_nearestEven :
    |(n : ℚ) / d - nearestEven n d| ≤ 1 / 2
      ∧ (|(n : ℚ) / d - nearestEven n d| = 1 / 2 → nearestEven n d % 2 = 0) := by
  have positive : (0 : ℚ) < d := Nat.cast_pos.mpr hd
  have remainder : (n % d : ℕ) / (d : ℚ) < 1 := by
    rw [div_lt_one positive]
    exact_mod_cast Nat.mod_lt n hd
  have start : 0 ≤ (n % d : ℕ) / (d : ℚ) := by positivity
  have below : (n % d : ℕ) / (d : ℚ) < 1 / 2 ↔ 2 * (n % d) < d := by
    rw [div_lt_div_iff₀ positive two_pos]
    norm_cast
    rw [Nat.one_mul, Nat.mul_comm]
  have above : 1 / 2 < (n % d : ℕ) / (d : ℚ) ↔ d < 2 * (n % d) := by
    rw [div_lt_div_iff₀ two_pos positive]
    norm_cast
    rw [Nat.one_mul, Nat.mul_comm]
  rw [cast_div_eq hd]
  generalize (n % d : ℕ) / (d : ℚ) = part at *
  unfold nearestEven
  dsimp only
  split
  · next less =>
    have less := below.mpr less
    rw [add_sub_cancel_left, abs_of_nonneg start]
    exact ⟨less.le, fun tie => absurd tie less.ne⟩
  · split
    · next more =>
      have more := above.mpr more
      rw [Nat.cast_add, Nat.cast_one, add_sub_add_left_eq_sub, abs_of_neg (by linarith)]
      exact ⟨by linarith, fun tie => absurd tie (by linarith)⟩
    · next notLess notMore =>
      have half : part = 1 / 2 :=
        le_antisymm (not_lt.mp (mt above.mp notMore)) (not_lt.mp (mt below.mp notLess))
      rw [half]
      rcases Nat.mod_two_eq_zero_or_one (n / d) with even | odd
      · rw [even, Nat.add_zero]
        exact ⟨by norm_num, fun _ => even⟩
      · rw [odd, Nat.cast_add, Nat.cast_one, add_sub_add_left_eq_sub]
        exact ⟨by norm_num, fun _ => by omega⟩

theorem nearestEven_nearest {j : ℕ} (hj : j ≠ nearestEven n d) :
    |(n : ℚ) / d - nearestEven n d| ≤ |(n : ℚ) / d - j|
      ∧ (|(n : ℚ) / d - j| = |(n : ℚ) / d - nearestEven n d| → nearestEven n d % 2 = 0) := by
  obtain ⟨half, even⟩ := abs_sub_nearestEven (n := n) hd
  have apart : (1 : ℚ) ≤ |(j : ℚ) - nearestEven n d| := by
    have whole : 1 ≤ |(j : ℤ) - nearestEven n d| := Int.one_le_abs (by omega)
    exact_mod_cast whole
  have triangle := abs_sub_le (j : ℚ) (n / d) (nearestEven n d)
  rw [abs_sub_comm (j : ℚ) (n / d)] at triangle
  exact ⟨by linarith, fun tie => even (by linarith)⟩

end Whole

/-! ### The nearest magnitude -/

/-- The binade whose grid a quotient is taken to. -/
def shift (n d : ℕ) : ℕ := (n / d).log2 - 52

/-- The significand on that grid. -/
def significand (n d : ℕ) : ℕ := nearestEven n (d * twoTo (shift n d))

theorem nearestMagnitude_eq (n d : ℕ) :
    nearestMagnitude n d
      = min (shift n d * fractionCount + significand n d) infiniteMagnitude := rfl

theorem div_lt_shift (n d : ℕ) : n / d < 2 * fractionCount * twoTo (shift n d) := by
  have bound : n / d < twoTo ((n / d).log2 + 1) := Nat.lt_log2_self
  have places : (n / d).log2 + 1 ≤ 1 + 52 + shift n d := by
    unfold shift
    omega
  have power : twoTo (1 + 52 + shift n d) = 2 * fractionCount * twoTo (shift n d) := by
    rw [twoTo_add, twoTo_add, fractionCount_eq]
    rfl
  rw [← power]
  exact lt_of_lt_of_le bound (Nat.pow_le_pow_right (by decide) places)

theorem shift_le_div {n d : ℕ} (h : shift n d ≠ 0) :
    fractionCount * twoTo (shift n d) ≤ n / d := by
  have nonzero : n / d ≠ 0 := by
    intro zero
    rw [shift, zero] at h
    exact h rfl
  have bound : twoTo (n / d).log2 ≤ n / d := Nat.log2_self_le nonzero
  have places : (n / d).log2 = 52 + shift n d := by
    unfold shift at h ⊢
    omega
  rwa [places, twoTo_add, ← fractionCount_eq] at bound

theorem nearestEven_cases (n d : ℕ) : nearestEven n d = n / d ∨ nearestEven n d = n / d + 1 := by
  unfold nearestEven
  dsimp only
  split
  · exact .inl rfl
  · split
    · exact .inr rfl
    · omega

theorem significand_le (n d : ℕ) : significand n d ≤ 2 * fractionCount := by
  have whole : n / (d * twoTo (shift n d)) < 2 * fractionCount := by
    rw [← Nat.div_div_eq_div_mul, Nat.div_lt_iff_lt_mul (twoTo_pos _)]
    exact div_lt_shift n d
  have cases := nearestEven_cases n (d * twoTo (shift n d))
  unfold significand
  omega

theorem le_significand {n d : ℕ} (h : shift n d ≠ 0) : fractionCount ≤ significand n d := by
  have whole : fractionCount ≤ n / (d * twoTo (shift n d)) := by
    rw [← Nat.div_div_eq_div_mul, Nat.le_div_iff_mul_le (twoTo_pos _)]
    exact shift_le_div h
  have cases := nearestEven_cases n (d * twoTo (shift n d))
  unfold significand
  omega

theorem unitsOf_significand (n d : ℕ) :
    unitsOf (shift n d * fractionCount + significand n d)
      = significand n d * twoTo (shift n d) := by
  refine unitsOf_add ?_ (significand_le n d)
  by_cases h : shift n d = 0
  · exact .inl h
  · exact .inr (le_significand h)

/-- Distances on the grid of a binade are those between whole numbers, scaled. -/
theorem abs_sub_mul_twoTo (n d s j : ℕ) :
    |(n : ℚ) / d - (j * twoTo s : ℕ)| = |(n : ℚ) / (d * twoTo s : ℕ) - j| * twoTo s := by
  have positive : (0 : ℚ) < twoTo s := Nat.cast_pos.mpr (twoTo_pos s)
  have scaled : (n : ℚ) / d - (j * twoTo s : ℕ) = (n / (d * twoTo s : ℕ) - j) * twoTo s := by
    rw [sub_mul, Nat.cast_mul, Nat.cast_mul, ← div_div, div_mul_cancel₀ _ positive.ne']
  rw [scaled, abs_mul, abs_of_pos positive]

/-- No other point of the grid is nearer. -/
theorem nearest_on_grid {n d j : ℕ} (hd : 0 < d) (hj : j ≠ significand n d) :
    |(n : ℚ) / d - (significand n d * twoTo (shift n d) : ℕ)|
        ≤ |(n : ℚ) / d - (j * twoTo (shift n d) : ℕ)|
      ∧ (|(n : ℚ) / d - (j * twoTo (shift n d) : ℕ)|
          = |(n : ℚ) / d - (significand n d * twoTo (shift n d) : ℕ)|
        → significand n d % 2 = 0) := by
  have positive : (0 : ℚ) < twoTo (shift n d) := Nat.cast_pos.mpr (twoTo_pos _)
  have whole := nearestEven_nearest (n := n) (Nat.mul_pos hd (twoTo_pos (shift n d))) hj
  rw [abs_sub_mul_twoTo, abs_sub_mul_twoTo]
  refine ⟨mul_le_mul_of_nonneg_right whole.1 positive.le, ?_⟩
  intro tie
  exact whole.2 (mul_right_cancel₀ positive.ne' tie)

/-- What lies before the binade is farther than the first point of the binade. -/
theorem far_before_binade {n d u : ℕ} (h : shift n d ≠ 0)
    (hu : u < fractionCount * twoTo (shift n d)) :
    |(n : ℚ) / d - (fractionCount * twoTo (shift n d) : ℕ)| < |(n : ℚ) / d - u| := by
  have start : ((fractionCount * twoTo (shift n d) : ℕ) : ℚ) ≤ n / d :=
    (Nat.cast_le.mpr (shift_le_div h)).trans Nat.cast_div_le
  have before : (u : ℚ) < (fractionCount * twoTo (shift n d) : ℕ) := Nat.cast_lt.mpr hu
  rw [abs_of_nonneg (by linarith), abs_of_nonneg (by linarith)]
  linarith

theorem nearest_significand {n d : ℕ} (hd : 0 < d) :
    Nearest (n / d) (shift n d * fractionCount + significand n d) := by
  have parity (even : significand n d % 2 = 0) :
      (shift n d * fractionCount + significand n d) % 2 = 0 := by
    have : fractionCount % 2 = 0 := by decide
    rw [Nat.add_mod, Nat.mul_mod, this, even]
    rfl
  have grid := @nearest_on_grid n d
  rw [← unitsOf_significand] at grid
  have compare (other : ℕ) (differs : other ≠ shift n d * fractionCount + significand n d) :
      |(n : ℚ) / d - unitsOf (shift n d * fractionCount + significand n d)|
          ≤ |(n : ℚ) / d - unitsOf other|
        ∧ (|(n : ℚ) / d - unitsOf other|
            = |(n : ℚ) / d - unitsOf (shift n d * fractionCount + significand n d)|
          → significand n d % 2 = 0) := by
    rcases unitsOf_multiple_or_lt (shift n d) other with ⟨j, hj⟩ | ⟨inside, before⟩
    · have apart : j ≠ significand n d := by
        rintro rfl
        rw [← unitsOf_significand] at hj
        exact differs (strictMono_unitsOf.injective hj)
      rw [hj]
      exact grid hd apart
    · have far := far_before_binade inside.ne' before
      have first : |(n : ℚ) / d - unitsOf (shift n d * fractionCount + significand n d)|
          ≤ |(n : ℚ) / d - (fractionCount * twoTo (shift n d) : ℕ)| := by
        by_cases apart : fractionCount = significand n d
        · rw [unitsOf_significand, ← apart]
        · exact (grid hd apart).1
      exact ⟨by linarith, fun tie => absurd tie (by linarith)⟩
  constructor
  · intro other
    by_cases same : other = shift n d * fractionCount + significand n d
    · rw [same]
    · exact (compare other same).1
  · intro other differs tie
    exact parity ((compare other differs).2 tie)

/-! ### Numbers without sign -/

theorem unitsPerOne_pos : (0 : ℚ) < unitsPerOne := Nat.cast_pos.mpr (twoTo_pos 1074)

section Unsigned

variable {x y : Binary64}

theorem toNat_of_positive (h : x.isNegative = false) : x.bits.toNat = x.magnitude := by
  have small : x.bits.toNat < magnitudeCount := by
    simpa [isNegative] using h
  rw [magnitude, Nat.mod_eq_of_lt small]

theorem eq_ofMagnitude (h : x.isNegative = false) : x = ofMagnitude x.magnitude := by
  rw [← toNat_of_positive h, ofMagnitude, UInt64.ofNat_toNat]

theorem eq_of_magnitude (hx : x.isNegative = false) (hy : y.isNegative = false)
    (h : x.magnitude = y.magnitude) : x = y := by
  rw [eq_ofMagnitude hx, eq_ofMagnitude hy, h]

theorem value_of_positive (positive : x.isNegative = false) :
    x.value = unitsOf x.magnitude / unitsPerOne := by
  rw [value, positive, if_neg Bool.false_ne_true, units]

theorem value_lt_iff (hx : x.isNegative = false) (hy : y.isNegative = false) :
    x.value < y.value ↔ x.magnitude < y.magnitude := by
  rw [value_of_positive hx, value_of_positive hy, div_lt_div_iff_of_pos_right unitsPerOne_pos,
    cast_unitsOf_lt]

end Unsigned

/-- The number without sign of a magnitude, all magnitudes beyond the finite ones being infinity. -/
def saturated (m : ℕ) : Binary64 := ofMagnitude (min m infiniteMagnitude)

theorem saturated_lt (m : ℕ) : min m infiniteMagnitude < magnitudeCount :=
  lt_of_le_of_lt (Nat.min_le_right _ _) (by decide)

theorem magnitude_saturated (m : ℕ) : (saturated m).magnitude = min m infiniteMagnitude :=
  magnitude_ofMagnitude (saturated_lt m)

theorem toNat_saturated (m : ℕ) : (saturated m).bits.toNat = min m infiniteMagnitude := by
  refine UInt64.toNat_ofNat_of_lt' ?_
  have : UInt64.size = 2 * magnitudeCount := rfl
  have := saturated_lt m
  omega

theorem isNegative_saturated (m : ℕ) : (saturated m).isNegative = false := by
  rw [isNegative, toNat_saturated]
  exact decide_eq_false (Nat.not_le.mpr (saturated_lt m))

theorem isNaN_saturated (m : ℕ) : (saturated m).isNaN = false := by
  rw [isNaN, magnitude_saturated]
  exact decide_eq_false (Nat.not_lt.mpr (Nat.min_le_right _ _))

theorem isInfinite_saturated {m : ℕ} :
    (saturated m).isInfinite = true ↔ infiniteMagnitude - 1 < m := by
  have : 0 < infiniteMagnitude := by decide
  rw [isInfinite, magnitude_saturated, beq_iff_eq]
  omega

theorem isFinite_saturated {m : ℕ} : (saturated m).isFinite = true ↔ m < infiniteMagnitude := by
  rw [isFinite, magnitude_saturated, decide_eq_true_iff]
  omega

theorem value_saturated {m : ℕ} (h : m < infiniteMagnitude) :
    (saturated m).value = unitsOf m / unitsPerOne := by
  rw [value_of_positive (isNegative_saturated m), magnitude_saturated, Nat.min_eq_left h.le]

/-! ### The nearest number -/

theorem units_div_nonneg (m : ℕ) : (0 : ℚ) ≤ unitsOf m / unitsPerOne :=
  div_nonneg (Nat.cast_nonneg _) unitsPerOne_pos.le

theorem unitsOf_zero : unitsOf 0 = 0 := rfl

theorem abs_sub_units (q : ℚ) (m : ℕ) :
    |q - unitsOf m / unitsPerOne| = |q * unitsPerOne - unitsOf m| / unitsPerOne := by
  have scaled : q - unitsOf m / unitsPerOne = (q * unitsPerOne - unitsOf m) / unitsPerOne := by
    rw [sub_div, mul_div_cancel_right₀ _ unitsPerOne_pos.ne']
  rw [scaled, abs_div, abs_of_pos unitsPerOne_pos]

/-- Twice the point halfway between the greatest finite number and the next power of two. -/
theorem midpoint_infinite :
    (midpoint (infiniteMagnitude - 1) : ℚ) = 2 * ((2 ^ 1024 - 2 ^ 970) * unitsPerOne) := by
  have last : unitsOf (infiniteMagnitude - 1) = (2 * fractionCount - 1) * twoTo 2045 := by
    have parts : infiniteMagnitude - 1 = 2045 * fractionCount + (2 * fractionCount - 1) := by decide
    rw [parts, unitsOf_add (.inr (by decide)) (by decide)]
  have next : unitsOf (infiniteMagnitude - 1 + 1) = 2 * fractionCount * twoTo 2045 := by
    have parts : infiniteMagnitude - 1 + 1 = 2045 * fractionCount + 2 * fractionCount := by decide
    rw [parts, unitsOf_add (.inr (by decide)) (by decide)]
  have high : (2 : ℚ) ^ 1024 = 2 ^ 54 * 2 ^ 970 := by rw [← pow_add]
  have scale : (2 : ℚ) ^ 2045 = 2 * 2 ^ 970 * 2 ^ 1074 := by rw [← pow_succ', ← pow_add]
  have significands : 2 * fractionCount - 1 + 2 * fractionCount = 2 ^ 54 - 1 := by decide
  rw [midpoint, last, next, ← Nat.add_mul, significands, Nat.cast_mul, cast_twoTo, scale, high,
    unitsPerOne, cast_twoTo]
  generalize (2 : ℚ) ^ 970 = low
  generalize (2 : ℚ) ^ 1074 = units
  push_cast
  ring

section Rational

variable {q : ℚ} {m : ℕ}

/-- A number that is not negative is no farther from the absolute value of another than from it. -/
theorem abs_sub_units_le (hq : 0 ≤ q) (y : Binary64) :
    |q - unitsOf y.magnitude / unitsPerOne| ≤ |q - y.value| := by
  have nonneg := units_div_nonneg y.magnitude
  unfold value units
  split
  · rw [sub_neg_eq_add, abs_of_nonneg (add_nonneg hq nonneg), abs_le]
    constructor <;> linarith
  · rfl

/-- No negative number is as near as zero, the negative zero apart. -/
theorem value_eq_of_near (hq : 0 ≤ q) {y : Binary64} (near : |q - y.value| ≤ q) :
    y.value = unitsOf y.magnitude / unitsPerOne := by
  have nonneg := units_div_nonneg y.magnitude
  unfold value units at near ⊢
  split at near
  · next negative =>
    rw [sub_neg_eq_add, abs_of_nonneg (add_nonneg hq nonneg)] at near
    rw [if_pos negative]
    linarith
  · next positive => rw [if_neg positive]

theorem Nearest.abs_le (h : Nearest (q * unitsPerOne) m) (other : ℕ) :
    |q - unitsOf m / unitsPerOne| ≤ |q - unitsOf other / unitsPerOne| := by
  rw [abs_sub_units, abs_sub_units]
  exact div_le_div_of_nonneg_right (h.nearest other) unitsPerOne_pos.le

theorem Nearest.even_of_tie (h : Nearest (q * unitsPerOne) m) (hq : 0 ≤ q) {y : Binary64}
    (differs : y.value ≠ unitsOf m / unitsPerOne)
    (tie : |q - y.value| = |q - unitsOf m / unitsPerOne|) : m % 2 = 0 := by
  have near : |q - y.value| ≤ q := by
    have zero := h.abs_le 0
    rwa [← tie, unitsOf_zero, Nat.cast_zero, zero_div, sub_zero, abs_of_nonneg hq] at zero
  rw [value_eq_of_near hq near] at differs tie
  rw [abs_sub_units, abs_sub_units, div_left_inj' unitsPerOne_pos.ne'] at tie
  refine h.even y.magnitude ?_ tie
  rintro rfl
  exact differs rfl

theorem Nearest.rounded (h : Nearest (q * unitsPerOne) m) (hq : 0 ≤ q) :
    Rounded q (saturated m) := by
  constructor
  · exact isNegative_saturated m
  · exact isNaN_saturated m
  · rw [isInfinite_saturated, h.lt_iff_of_odd (by decide), midpoint_infinite,
      mul_le_mul_iff_of_pos_left two_pos, mul_le_mul_iff_of_pos_right unitsPerOne_pos]
  · intro finite y _
    rw [value_saturated (isFinite_saturated.mp finite)]
    exact (h.abs_le y.magnitude).trans (abs_sub_units_le hq y)
  · intro finite y _ differs tie
    rw [isFinite_saturated] at finite
    rw [value_saturated finite] at differs tie
    rw [toNat_saturated, Nat.min_eq_left finite.le]
    exact h.even_of_tie hq differs tie

theorem Nearest.saturated_eq_zero_iff (h : Nearest (q * unitsPerOne) m) :
    saturated m = ofMagnitude 0 ↔ q ≤ 1 / 2 ^ 1075 := by
  have zero : saturated m = ofMagnitude 0 ↔ ¬ 0 < m := by
    have positive : 0 < infiniteMagnitude := by decide
    constructor
    · intro same
      have magnitudes := congrArg magnitude same
      rw [magnitude_saturated, magnitude_ofMagnitude (by decide)] at magnitudes
      omega
    · intro none
      rw [saturated, Nat.eq_zero_of_not_pos none, Nat.zero_min]
  have least : midpoint 0 = 1 := by decide
  have scale : (1 : ℚ) / 2 ^ 1075 = 1 / (2 * unitsPerOne) := by
    rw [unitsPerOne, cast_twoTo, ← pow_succ']
  rw [zero, h.lt_iff_of_even rfl, not_lt, least, Nat.cast_one, scale,
    le_div_iff₀ (mul_pos two_pos unitsPerOne_pos), mul_left_comm]

variable {q' : ℚ} {m' : ℕ}

theorem Nearest.atMost (h : Nearest (q * unitsPerOne) m) (h' : Nearest (q' * unitsPerOne) m')
    (le : q ≤ q') : AtMost (saturated m) (saturated m') := by
  have order : m ≤ m' := h.mono h' (mul_le_mul_of_nonneg_right le unitsPerOne_pos.le)
  by_cases beyond : m' < infiniteMagnitude
  · have finite : m < infiniteMagnitude := lt_of_le_of_lt order beyond
    refine .inr ⟨isFinite_saturated.mpr finite, isFinite_saturated.mpr beyond, ?_⟩
    rw [value_saturated finite, value_saturated beyond]
    exact div_le_div_of_nonneg_right (cast_unitsOf_le.mpr order) unitsPerOne_pos.le
  · have : 0 < infiniteMagnitude := by decide
    exact .inl (isInfinite_saturated.mpr (by omega))

end Rational

theorem exists_nearest_ofRatio (n : ℕ) {d : ℕ} (hd : 0 < d) :
    ∃ m, ofRatio n d = saturated m ∧ Nearest (n / d * unitsPerOne) m := by
  have near := nearest_significand (n := n * unitsPerOne) hd
  rw [Nat.cast_mul, mul_div_right_comm] at near
  refine ⟨_, ?_, near⟩
  rw [ofRatio, nearestMagnitude_eq, saturated]

/-! ### The nearest number is unique -/

namespace Rounded

variable {q : ℚ} {x y : Binary64}

/-- Between two even magnitudes there is an odd one, which is nearer to what lies halfway. -/
theorem magnitude_le (hx : Rounded q x) (hy : Rounded q y) (finite : x.isFinite = true)
    (finite' : y.isFinite = true) : y.magnitude ≤ x.magnitude := by
  by_contra less
  have order : x.value < y.value :=
    (value_lt_iff hx.isNegative hy.isNegative).mpr (Nat.lt_of_not_le less)
  have tie : |q - x.value| = |q - y.value| :=
    le_antisymm (hx.nearest finite y finite') (hy.nearest finite' x finite)
  have even := hx.even finite y finite' order.ne' tie.symm
  have even' := hy.even finite' x finite order.ne tie
  rw [toNat_of_positive hx.isNegative] at even
  rw [toNat_of_positive hy.isNegative] at even'
  have gap : x.magnitude + 1 < y.magnitude := by omega
  have below : y.magnitude < infiniteMagnitude := of_decide_eq_true finite'
  have between : (saturated (x.magnitude + 1)).magnitude = x.magnitude + 1 := by
    rw [magnitude_saturated]
    omega
  have lower : x.value < (saturated (x.magnitude + 1)).value := by
    rw [value_lt_iff hx.isNegative (isNegative_saturated _), between]
    exact Nat.lt_succ_self _
  have upper : (saturated (x.magnitude + 1)).value < y.value := by
    rw [value_lt_iff (isNegative_saturated _) hy.isNegative, between]
    exact gap
  have middle := (abs_sub_eq_iff order).mp tie
  have near := hx.nearest finite _ (isFinite_saturated.mpr (gap.trans below))
  have passed := (abs_sub_lower_le_iff lower).mp near
  linarith

theorem unique (hx : Rounded q x) (hy : Rounded q y) : x = y := by
  refine eq_of_magnitude hx.isNegative hy.isNegative ?_
  by_cases infinite : 2 ^ 1024 - 2 ^ 970 ≤ q
  · have top : x.magnitude = infiniteMagnitude := beq_iff_eq.mp (hx.isInfinite.mpr infinite)
    have top' : y.magnitude = infiniteMagnitude := beq_iff_eq.mp (hy.isInfinite.mpr infinite)
    rw [top, top']
  · have finite {z : Binary64} (hz : Rounded q z) : z.isFinite = true := by
      have most : ¬ infiniteMagnitude < z.magnitude := of_decide_eq_false hz.isNaN
      have other : z.magnitude ≠ infiniteMagnitude := fun top =>
        infinite (hz.isInfinite.mp (beq_iff_eq.mpr top))
      exact decide_eq_true (by omega)
    exact Nat.le_antisymm (hy.magnitude_le hx (finite hy) (finite hx))
      (hx.magnitude_le hy (finite hx) (finite hy))

end Rounded

end Lox.Binary64

/-! ### Decimals -/

namespace Lox

open Binary64

theorem tenTo_pos (n : ℕ) : 0 < tenTo n := Nat.pow_pos (by decide)

theorem cast_tenTo (n : ℕ) : (tenTo n : ℚ) = 10 ^ n := Nat.cast_pow 10 n

namespace Decimal

variable (d d' : Decimal)

theorem value_nonneg : 0 ≤ d.value :=
  mul_nonneg (Nat.cast_nonneg _) (zpow_nonneg (by norm_num) _)

variable {d} in
theorem value_of_neg (h : d.exponent < 0) :
    d.value = d.coefficient / tenTo d.exponent.natAbs := by
  have power : (10 : ℚ) ^ d.exponent = (tenTo d.exponent.natAbs : ℚ)⁻¹ := by
    rw [cast_tenTo, ← zpow_natCast, ← zpow_neg, Int.ofNat_natAbs_of_nonpos h.le, neg_neg]
  rw [value, power, ← div_eq_mul_inv]

variable {d} in
theorem value_of_nonneg (h : ¬ d.exponent < 0) :
    d.value = (d.coefficient * tenTo d.exponent.natAbs : ℕ) := by
  have power : (10 : ℚ) ^ d.exponent = tenTo d.exponent.natAbs := by
    rw [cast_tenTo, ← zpow_natCast, Int.natAbs_of_nonneg (Int.not_lt.mp h)]
  rw [value, power, Nat.cast_mul]

theorem exists_nearest : ∃ m, d.round = saturated m ∧ Nearest (d.value * unitsPerOne) m := by
  unfold round
  split
  · next negative =>
    rw [value_of_neg negative]
    exact exists_nearest_ofRatio d.coefficient (tenTo_pos d.exponent.natAbs)
  · next positive =>
    have near := exists_nearest_ofRatio (d.coefficient * tenTo d.exponent.natAbs) Nat.one_pos
    rwa [Nat.cast_one, div_one, ← value_of_nonneg positive] at near

theorem rounded_round : Rounded d.value d.round := by
  obtain ⟨m, rounds, near⟩ := d.exists_nearest
  rw [rounds]
  exact near.rounded d.value_nonneg

theorem round_eq_zero_iff : d.round = ofMagnitude 0 ↔ d.value ≤ 1 / 2 ^ 1075 := by
  obtain ⟨m, rounds, near⟩ := d.exists_nearest
  rw [rounds]
  exact near.saturated_eq_zero_iff

variable {d d'}

/-- Nothing but the value of a decimal matters to how it is rounded. -/
theorem round_congr (h : d.value = d'.value) : d.round = d'.round :=
  d.rounded_round.unique (h ▸ d'.rounded_round)

theorem round_mono (h : d.value ≤ d'.value) : AtMost d.round d'.round := by
  obtain ⟨m, rounds, near⟩ := d.exists_nearest
  obtain ⟨m', rounds', near'⟩ := d'.exists_nearest
  rw [rounds, rounds']
  exact near.atMost near' h

end Decimal

end Lox
