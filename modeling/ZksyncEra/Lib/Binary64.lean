import Mathlib

/-!
Non-negative IEEE 754 binary64 values and the operations a program applies to them: conversion of
an unsigned integer (`n as f64`), multiplication, and the saturating conversion back (`x as u64`).
Results are rounded to nearest, ties to even.

A finite value is held exactly, as a whole number of units of the least subnormal `2^-1074`. It is
representable when it is a significand below `2^53` times a power of two and does not exceed the
largest finite value `(2^53 - 1) · 2^971`; the constructor asks for that proof, so every value
built is one the format has. Rounding an exact value `n · 2^-scale` units keeps `53` significant
bits and nothing below the unit, and overflows to infinity past the largest finite value. Negative
values and the sign of zero are not modelled.
-/

/-- Bits of significand, the hidden bit included. -/
def precision : Nat := 53

-- Irreducible, so that elaboration never unfolds `2 ^ 1074` into a numeral.
/-- The least subnormal value is `2^-unitExponent`. -/
@[irreducible] def unitExponent : Nat := 1074

/-- The largest finite value, in units of the least subnormal. -/
@[irreducible] def maxUnits : Nat := (2 ^ precision - 1) * 2 ^ (971 + unitExponent)

/-- A significand below `2^53` at a binary exponent up to `971` is below the largest finite value. -/
theorem le_maxUnits (m k : Nat) (significand : m < 2 ^ precision) (exponent : k ≤ 971) :
    m * 2 ^ (k + unitExponent) ≤ maxUnits := by
  unfold maxUnits
  exact Nat.mul_le_mul (by omega) (Nat.pow_le_pow_right (by decide) (by omega))

/-- A number of units the format can hold. -/
structure Representable (units : Nat) : Prop where
  fits : units ≤ maxUnits
  significand : ∃ significand exponent, significand < 2 ^ precision ∧
    units = significand * 2 ^ exponent

/-- A non-negative binary64 value. -/
inductive Binary64 where
  | finite (units : Nat) (representable : Representable units)
  | infinity
  | nan

namespace Binary64

theorem representable_of_le (significand exponent : Nat) (bound : significand ≤ 2 ^ precision)
    (fits : significand * 2 ^ exponent ≤ maxUnits) :
    Representable (significand * 2 ^ exponent) := by
  refine ⟨fits, ?_⟩
  rcases Nat.lt_or_ge significand (2 ^ precision) with below | top
  · exact ⟨significand, exponent, below, rfl⟩
  · -- a significand rounded up to `2^53` is `2^52` one binade higher
    have top : significand = 2 * 2 ^ 52 := by simp [precision] at bound top ⊢; omega
    refine ⟨2 ^ 52, exponent + 1, by simp [precision], ?_⟩
    rw [top, Nat.pow_succ]
    ring

/-- `n / 2^shift` rounded to the nearest whole number, ties to even. -/
def roundShift (n shift : Nat) : Nat :=
  let quotient := n / 2 ^ shift
  let remainder := n % 2 ^ shift
  if 2 * remainder < 2 ^ shift then quotient
  else if 2 ^ shift < 2 * remainder then quotient + 1
  else if quotient % 2 = 0 then quotient else quotient + 1

/-- The shift that rounds `n · 2^-scale` units: it leaves at most `precision` significant bits, and
nothing below the unit. -/
def roundingShift (n scale : Nat) : Nat := max scale (n.log2 + 1 - precision)

theorem roundShift_le_succ (n shift : Nat) : roundShift n shift ≤ n / 2 ^ shift + 1 := by
  simp only [roundShift]
  split_ifs <;> omega

theorem roundShift_mul_pow (m shift : Nat) : roundShift (m * 2 ^ shift) shift = m := by
  have positive : 0 < 2 ^ shift := Nat.two_pow_pos shift
  simp [roundShift, Nat.mul_mod_left, Nat.mul_div_cancel m positive, positive]

theorem roundShift_roundingShift_le (n scale : Nat) :
    roundShift n (roundingShift n scale) ≤ 2 ^ precision := by
  have below : n / 2 ^ roundingShift n scale < 2 ^ precision := by
    rw [Nat.div_lt_iff_lt_mul (Nat.two_pow_pos _), ← Nat.pow_add]
    calc n < 2 ^ (n.log2 + 1) := Nat.lt_log2_self
      _ ≤ 2 ^ (precision + roundingShift n scale) :=
        Nat.pow_le_pow_right (by decide) (by simp only [roundingShift]; omega)
  have := roundShift_le_succ n (roundingShift n scale)
  omega

/-- The exact value `n · 2^-scale` units, rounded to the format. -/
def round (n scale : Nat) : Binary64 :=
  let shift := roundingShift n scale
  if fits : roundShift n shift * 2 ^ (shift - scale) ≤ maxUnits then
    finite _ (representable_of_le _ _ (roundShift_roundingShift_le n scale) fits)
  else infinity

/-- `n as f64`. -/
def ofNat (n : Nat) : Binary64 := round (n * 2 ^ unitExponent) 0

/-- Multiplication; zero times infinity is NaN. -/
def mul : Binary64 → Binary64 → Binary64
  | finite a _, finite b _ => round (a * b) unitExponent
  | nan, _ => nan
  | _, nan => nan
  | infinity, finite b _ => if b = 0 then nan else infinity
  | finite a _, infinity => if a = 0 then nan else infinity
  | infinity, infinity => infinity

instance : Mul Binary64 := ⟨mul⟩

/-- `x as u64`: truncated towards zero and saturating at `u64::MAX`; NaN is `0`. -/
def toUInt64 : Binary64 → UInt64
  | finite units _ => UInt64.ofNat (min (units / 2 ^ unitExponent) (2 ^ 64 - 1))
  | infinity => UInt64.ofNat (2 ^ 64 - 1)
  | nan => 0

theorem representable_zero : Representable 0 := ⟨Nat.zero_le _, 0, 0, by decide, rfl⟩

/-- `0.0`. -/
def zero : Binary64 := finite 0 representable_zero

/-- `1.0`. -/
def one : Binary64 :=
  finite (1 * 2 ^ (0 + unitExponent))
    (representable_of_le 1 _ (by decide) (le_maxUnits 1 0 (by decide) (by decide)))

/-! ### Exact results -/

/-- Rounding keeps a value the format holds. -/
theorem round_exact (m q scale : Nat) (significand : m < 2 ^ precision)
    (fits : m * 2 ^ q ≤ maxUnits) :
    round (m * 2 ^ (q + scale)) scale =
      finite (m * 2 ^ q) (representable_of_le m q significand.le fits) := by
  have atMost : roundingShift (m * 2 ^ (q + scale)) scale ≤ q + scale := by
    rcases Nat.eq_zero_or_pos m with rfl | positive
    · simp [roundingShift, precision]
    · -- the exact value has fewer than `q + scale + 53` bits
      have bits : (m * 2 ^ (q + scale)).log2 < q + scale + precision := by
        rw [Nat.log2_lt (Nat.mul_ne_zero positive.ne' (Nat.two_pow_pos _).ne')]
        calc m * 2 ^ (q + scale) < 2 ^ precision * 2 ^ (q + scale) :=
              Nat.mul_lt_mul_of_pos_right significand (Nat.two_pow_pos _)
          _ = 2 ^ (q + scale + precision) := by rw [← Nat.pow_add, Nat.add_comm precision]
      simp only [roundingShift]
      omega
  have atLeast : scale ≤ roundingShift (m * 2 ^ (q + scale)) scale := le_max_left _ _
  generalize shiftIs : roundingShift (m * 2 ^ (q + scale)) scale = shift at atMost atLeast
  -- the exact value is a whole number at the rounding shift, so rounding returns it
  have rounded : roundShift (m * 2 ^ (q + scale)) shift * 2 ^ (shift - scale) = m * 2 ^ q := by
    have decompose : m * 2 ^ (q + scale) = m * 2 ^ (q + scale - shift) * 2 ^ shift := by
      rw [Nat.mul_assoc, ← Nat.pow_add, Nat.sub_add_cancel atMost]
    rw [decompose, roundShift_mul_pow, Nat.mul_assoc, ← Nat.pow_add]
    congr 2
    omega
  have fitsRounded : roundShift (m * 2 ^ (q + scale)) shift * 2 ^ (shift - scale) ≤ maxUnits := by
    rw [rounded]
    exact fits
  simp only [round, shiftIs]
  rw [dif_pos fitsRounded]
  congr 1

/-- `n · 2^k as f64` is exact for a significand `n` below `2^53`. -/
theorem ofNat_mul_pow (m k : Nat) (significand : m < 2 ^ precision)
    (fits : m * 2 ^ (k + unitExponent) ≤ maxUnits) :
    ofNat (m * 2 ^ k) = finite (m * 2 ^ (k + unitExponent))
      (representable_of_le m _ significand.le fits) := by
  have exact := round_exact m (k + unitExponent) 0 significand fits
  rw [Nat.add_zero] at exact
  rw [ofNat, Nat.mul_assoc, ← Nat.pow_add]
  exact exact

theorem mul_finite (a b : Nat) (representableA : Representable a)
    (representableB : Representable b) :
    finite a representableA * finite b representableB = round (a * b) unitExponent := rfl

theorem infinity_mul_finite (b : Nat) (representable : Representable b) :
    infinity * finite b representable = if b = 0 then nan else infinity := rfl

theorem mul_one (x : Binary64) : x * one = x := by
  cases x with
  | finite units representable =>
    obtain ⟨fits, m, q, significand, rfl⟩ := representable
    rw [one, mul_finite, Nat.zero_add, Nat.one_mul, Nat.mul_assoc, ← Nat.pow_add]
    exact round_exact m q unitExponent significand fits
  | infinity =>
    have nonzero : 1 * 2 ^ (0 + unitExponent) ≠ 0 := (Nat.mul_pos Nat.one_pos (Nat.two_pow_pos _)).ne'
    rw [one, infinity_mul_finite, if_neg nonzero]
  | nan => rfl

theorem round_zero (scale : Nat) : round 0 scale = zero := by
  have exact := round_exact 0 0 scale (by decide) (Nat.zero_le _)
  simp only [Nat.zero_mul] at exact
  rw [exact, zero]

theorem mul_zero (units : Nat) (representable : Representable units) :
    finite units representable * zero = zero := by
  rw [zero, mul_finite, Nat.mul_zero, round_zero, zero]

theorem toUInt64_finite (units n : Nat) (representable : Representable units)
    (whole : units = n * 2 ^ unitExponent) (below : n < 2 ^ 64) :
    toUInt64 (finite units representable) = UInt64.ofNat n := by
  subst whole
  simp only [toUInt64, Nat.mul_div_cancel n (Nat.two_pow_pos unitExponent)]
  rw [Nat.min_eq_left (by omega)]

end Binary64
