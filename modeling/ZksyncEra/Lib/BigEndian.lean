import Mathlib

/-!
Big-endian byte strings of natural numbers.

`encode width n` writes `n` modulo `256 ^ width` in `width` bytes, most significant first, which
is what a fixed-width `to_be_bytes` of a truncated integer gives; `decode` reads a byte string of
any length back, the empty string standing for zero. Dropping leading bytes of an encoding is
encoding in fewer bytes, and a number needs `⌈size / 8⌉` bytes exactly.
-/

namespace BigEndian

/-- The `width` lowest bytes of `n`, most significant first. -/
def encode : (width : Nat) → Nat → List UInt8
  | 0, _ => []
  | width + 1, n => encode width (n / 256) ++ [UInt8.ofNat n]

/-- The number a big-endian byte string stands for. -/
def decode (bytes : List UInt8) : Nat :=
  bytes.foldl (fun acc byte => acc * 256 + byte.toNat) 0

@[simp] theorem encode_zero (n : Nat) : encode 0 n = [] := rfl

@[simp] theorem length_encode (width n : Nat) : (encode width n).length = width := by
  induction width generalizing n with
  | zero => rfl
  | succ width ih => simp [encode, ih]

@[simp] theorem decode_nil : decode [] = 0 := rfl

/-- The fold of `decode` from any start shifts the start past the bytes read. -/
theorem foldl_decode (bytes : List UInt8) (start : Nat) :
    bytes.foldl (fun acc byte => acc * 256 + byte.toNat) start =
      start * 256 ^ bytes.length + decode bytes := by
  induction bytes generalizing start with
  | nil => simp
  | cons byte rest ih =>
    show List.foldl _ (start * 256 + byte.toNat) rest =
      start * 256 ^ (rest.length + 1) + List.foldl _ (0 * 256 + byte.toNat) rest
    rw [ih, ih (0 * 256 + byte.toNat)]
    ring

theorem decode_append (front back : List UInt8) :
    decode (front ++ back) = decode front * 256 ^ back.length + decode back := by
  rw [decode, List.foldl_append, foldl_decode]
  rfl

@[simp] theorem decode_singleton (byte : UInt8) : decode [byte] = byte.toNat := by
  simp [decode]

theorem decode_lt (bytes : List UInt8) : decode bytes < 256 ^ bytes.length := by
  induction bytes using List.reverseRecOn with
  | nil => simp
  | append_singleton front byte ih =>
    have small : byte.toNat < 256 := byte.toNat_lt
    have room : (decode front + 1) * 256 ≤ 256 ^ front.length * 256 := Nat.mul_le_mul_right _ ih
    rw [decode_append, decode_singleton, List.length_append, List.length_singleton, pow_one,
      pow_succ]
    omega

/-- Reading an encoding back gives the number modulo the width. -/
@[simp] theorem decode_encode (width n : Nat) : decode (encode width n) = n % 256 ^ width := by
  induction width generalizing n with
  | zero => simp [Nat.mod_one]
  | succ width ih =>
    rw [encode, decode_append, ih, decode_singleton, UInt8.toNat_ofNat', List.length_singleton,
      pow_one, pow_succ (256 : Nat) width, Nat.mul_comm (256 ^ width), Nat.mod_mul]
    ring

theorem decode_encode_of_lt {width n : Nat} (small : n < 256 ^ width) :
    decode (encode width n) = n := by
  rw [decode_encode, Nat.mod_eq_of_lt small]

/-- The byte at position `i` of an encoding. -/
theorem getElem_encode (width n i : Nat) (inside : i < (encode width n).length) :
    (encode width n)[i] = UInt8.ofNat (n / 256 ^ (width - 1 - i)) := by
  induction width generalizing n with
  | zero => simp at inside
  | succ width ih =>
    simp only [length_encode] at inside
    simp only [encode]
    by_cases last : i = width
    · subst last
      simp [List.getElem_append_right]
    · have front : i < (encode width (n / 256)).length := by simp; omega
      rw [List.getElem_append_left front, ih (n / 256) front, Nat.div_div_eq_div_mul,
        ← Nat.pow_succ']
      congr 3
      omega

/-- The last `width` bytes of a wider encoding are the encoding in `width` bytes. -/
theorem drop_encode (extra width n : Nat) : (encode (extra + width) n).drop extra = encode width n := by
  apply List.ext_getElem (by simp)
  intro i inDrop inside
  rw [List.getElem_drop, getElem_encode, getElem_encode]
  congr 3
  omega

/-- Encoding the number a byte string stands for gives the string back. -/
theorem encode_decode (bytes : List UInt8) : encode bytes.length (decode bytes) = bytes := by
  induction bytes using List.reverseRecOn with
  | nil => rfl
  | append_singleton front byte ih =>
    have small : byte.toNat < 256 := byte.toNat_lt
    have high : (decode front * 256 + byte.toNat) / 256 = decode front := by omega
    rw [List.length_append, List.length_singleton, encode, decode_append, decode_singleton,
      List.length_singleton, pow_one, high, ih]
    simp [UInt8.ofNat_add, UInt8.ofNat_mul]

/-! ### Bytes needed for a number -/

/-- A number fits in `k` bytes exactly when its bit length, rounded up to whole bytes, is at
most `k`. -/
theorem size_bytes_le_iff (n k : Nat) : (n.size + 7) / 8 ≤ k ↔ n < 256 ^ k := by
  rw [show (256 : Nat) ^ k = 2 ^ (8 * k) by rw [Nat.pow_mul], ← Nat.size_le]
  omega

theorem lt_pow_size_bytes (n : Nat) : n < 256 ^ ((n.size + 7) / 8) :=
  (size_bytes_le_iff n _).mp (Nat.le_refl _)

end BigEndian
