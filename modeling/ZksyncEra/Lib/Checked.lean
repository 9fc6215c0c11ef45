import Mathlib

/-!
Unsigned fixed-width arithmetic as Rust's big-integer types do it: `+`, `-` and `*` panic where
the exact result does not fit, which is `none` here, and `overflowing_add` returns the wrapped
sum with a flag. A counter kept as a natural number (one that no run can bring near its width)
keeps only the panic of `-` below zero (`natSub`). The overflow tests are core's `BitVec.uaddOverflow`, `usubOverflow` and
`umulOverflow`; where an operation does not overflow, its result is the exact one
(`BitVec.toNat_add_of_lt` and its siblings).
-/

namespace Checked

variable {w : Nat}

/-- `+`, which panics on overflow. -/
def add (x y : BitVec w) : Option (BitVec w) := if x.uaddOverflow y then none else some (x + y)

/-- `-`, which panics on underflow. -/
def sub (x y : BitVec w) : Option (BitVec w) := if x.usubOverflow y then none else some (x - y)

/-- `*`, which panics on overflow. -/
def mul (x y : BitVec w) : Option (BitVec w) := if x.umulOverflow y then none else some (x * y)

/-- `-=` on a counter kept as a natural number, which panics below zero. -/
def natSub (x y : Nat) : Option Nat := if y ≤ x then some (x - y) else none

/-- `overflowing_add`: the wrapped sum, and whether it wrapped. -/
def overflowingAdd (x y : BitVec w) : BitVec w × Bool := (x + y, x.uaddOverflow y)

variable {x y : BitVec w}

theorem add_eq_some (fits : x.toNat + y.toNat < 2 ^ w) : add x y = some (x + y) := by
  have clear : x.uaddOverflow y = false := by simpa [BitVec.uaddOverflow] using fits
  simp [add, clear]

theorem sub_eq_some (le : y.toNat ≤ x.toNat) : sub x y = some (x - y) := by
  have clear : x.usubOverflow y = false := by simpa [BitVec.usubOverflow] using le
  simp [sub, clear]

theorem mul_eq_some (fits : x.toNat * y.toNat < 2 ^ w) : mul x y = some (x * y) := by
  have clear : x.umulOverflow y = false := by simpa [BitVec.umulOverflow] using fits
  simp [mul, clear]

theorem natSub_eq_some {x y : Nat} (le : y ≤ x) : natSub x y = some (x - y) := by
  simp [natSub, le]

theorem natSub_eq_some_iff {x y z : Nat} : natSub x y = some z ↔ y ≤ x ∧ z = x - y := by
  unfold natSub
  split_ifs with le
  · simp only [Option.some.injEq, true_and, le]
    exact eq_comm
  · simp only [false_iff, not_and]
    exact fun below => absurd below le

@[simp] theorem natSub_add (x y : Nat) : natSub (x + y) y = some x := by
  simp [natSub]

/-- `overflowing_add` with the maximum put in place of a wrapped sum is the sum saturated at the
maximum. -/
theorem toNat_overflowingAdd_clamp :
    (if (overflowingAdd x y).2 then BitVec.allOnes w else (overflowingAdd x y).1).toNat =
      min (x.toNat + y.toNat) (2 ^ w - 1) := by
  by_cases wraps : x.toNat + y.toNat ≥ 2 ^ w
  · have flag : x.uaddOverflow y = true := by simpa [BitVec.uaddOverflow] using wraps
    simp only [overflowingAdd, flag, if_true, BitVec.toNat_allOnes]
    omega
  · have flag : x.uaddOverflow y = false := by simpa [BitVec.uaddOverflow] using wraps
    simp only [overflowingAdd, flag, Bool.false_eq_true, if_false]
    rw [BitVec.toNat_add_of_lt (by omega)]
    omega

end Checked
