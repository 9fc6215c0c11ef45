import ZksyncEra.MerkleTree.Types

/-!
Nibble sequences as key prefixes.

A `Nibbles` value stores its nibbles two to a byte, high half first. `nibbleAt` reads nibble
`i` back from the bytes; `digit key i` is nibble `i` of a key as a number (digit `63 - i` in
base 16) and `prefixValue key n` the number formed by its first `n` nibbles. The main lemmas:
`Nibbles.new` stores exactly the first `n` digits, so two prefixes are equal iff the digits
agree; `split_last` and `push` move between `new key n` and `new key (n + 1)`.
-/

namespace ZksyncEra.MerkleTree

namespace Nibbles

/-- Nibble `i` of a key, as a number: digit `63 - i` of the key in base 16. -/
def digit (key : Key) (i : Nat) : Nat :=
  key.toNat / 2 ^ (4 * (63 - i)) % 16

/-- The first `n` nibbles of a key, as a number. -/
def prefixValue (key : Key) (n : Nat) : Nat :=
  key.toNat / 2 ^ (4 * (64 - n))

/-- Nibble `i` as stored in the bytes: high half of byte `i / 2` for even `i`, low half for
odd `i`. -/
def nibbleAt (x : Nibbles) (i : Nat) : Nat :=
  if i % 2 = 0 then (byteAt x.bytes (i / 2)).toNat / 16 else (byteAt x.bytes (i / 2)).toNat % 16

/-- Nibbles beyond the count are zero, so equal nibble sequences have equal bytes. -/
def Canonical (x : Nibbles) : Prop :=
  x.nibbleCount ≤ 64 ∧ ∀ i, x.nibbleCount ≤ i → i < 64 → x.nibbleAt i = 0

/-! ### Digits of a key -/

private theorem mod_two_pow_div_mod (x : Nat) {s w : Nat} (fits : s + 4 ≤ w) :
    x % 2 ^ w / 2 ^ s % 16 = x / 2 ^ s % 16 := by
  have split : 2 ^ w = 2 ^ s * 2 ^ (w - s) := by rw [← Nat.pow_add]; congr 1; omega
  rw [split, Nat.mod_mul_right_div_self]
  apply Nat.mod_mod_of_dvd
  exact ⟨2 ^ (w - s - 4), by rw [show (16 : Nat) = 2 ^ 4 by rfl, ← Nat.pow_add]; congr 1; omega⟩

theorem nibble_toNat (key : Key) {i : Nat} (hi : i < 64) :
    (nibble key i).toNat = digit key i := by
  unfold nibble U256.limb digit
  simp only [UInt64.toNat_toUInt8, UInt64.toNat_and, UInt64.toNat_shiftRight, UInt64.toNat_ofNat']
  have shift : (16 - 1 - i % 16) * 4 % 2 ^ 64 % 64 = (15 - i % 16) * 4 := by omega
  have total : 64 * (3 - i / 16) + (15 - i % 16) * 4 = 4 * (63 - i) := by omega
  have fifteen : UInt64.toNat 15 = 2 ^ 4 - 1 := rfl
  rw [shift, fifteen, Nat.and_two_pow_sub_one_eq_mod,
    Nat.shiftRight_eq_div_pow, Nat.shiftRight_eq_div_pow,
    mod_two_pow_div_mod _ (by omega), Nat.div_div_eq_div_mul, ← Nat.pow_add, total]
  exact Nat.mod_eq_of_lt (Nat.lt_trans (Nat.mod_lt _ (by decide)) (by decide))

theorem digit_lt (key : Key) (i : Nat) : digit key i < 16 :=
  Nat.mod_lt _ (by decide)

theorem nibble_lt (key : Key) {i : Nat} (hi : i < 64) : (nibble key i).toNat < 16 := by
  rw [nibble_toNat key hi]; exact digit_lt key i

theorem nibble_eq_nibble_iff (key key' : Key) {i : Nat} (hi : i < 64) :
    nibble key i = nibble key' i ↔ digit key i = digit key' i := by
  rw [← nibble_toNat key hi, ← nibble_toNat key' hi, UInt8.toNat_inj]

theorem toBigEndian_toNat (key : Key) {j : Nat} (hj : j < 32) :
    (key.toBigEndian[j]).toNat = key.toNat / 2 ^ (8 * (31 - j)) % 256 := by
  simp [U256.toBigEndian, Nat.shiftRight_eq_div_pow]

theorem toBigEndian_high (key : Key) {j : Nat} (hj : j < 32) :
    (key.toBigEndian[j]).toNat / 16 = digit key (2 * j) := by
  have shift : 2 ^ (8 * (31 - j)) * 16 = 2 ^ (4 * (63 - 2 * j)) := by
    rw [show (16 : Nat) = 2 ^ 4 from rfl, ← Nat.pow_add]; congr 1; omega
  rw [toBigEndian_toNat key hj, Nat.mod_mul_right_div_self _ 16 16, Nat.div_div_eq_div_mul, shift]
  rfl

theorem toBigEndian_low (key : Key) {j : Nat} (hj : j < 32) :
    (key.toBigEndian[j]).toNat % 16 = digit key (2 * j + 1) := by
  rw [toBigEndian_toNat key hj, Nat.mod_mod_of_dvd _ (by decide : 16 ∣ 256), digit,
    show 4 * (63 - (2 * j + 1)) = 8 * (31 - j) by omega]

theorem prefixValue_zero (key : Key) : prefixValue key 0 = 0 :=
  Nat.div_eq_of_lt (by simpa using key.isLt)

/-- Appending digit `n` to the `n`-nibble prefix. -/
theorem prefixValue_succ (key : Key) {n : Nat} (hn : n < 64) :
    prefixValue key (n + 1) = 16 * prefixValue key n + digit key n := by
  have split : 2 ^ (4 * (64 - n)) = 2 ^ (4 * (63 - n)) * 16 := by
    rw [show (16 : Nat) = 2 ^ 4 by rfl, ← Nat.pow_add]; congr 1; omega
  rw [prefixValue, prefixValue, digit, show 64 - (n + 1) = 63 - n by omega, split,
    ← Nat.div_div_eq_div_mul]
  omega

/-- Two keys share their first `n` digits iff their `n`-nibble prefixes are equal numbers. -/
theorem digits_eq_iff {key key' : Key} {n : Nat} (hn : n ≤ 64) :
    (∀ i < n, digit key i = digit key' i) ↔ prefixValue key n = prefixValue key' n := by
  induction n with
  | zero => simp [prefixValue_zero]
  | succ n ih =>
    rw [prefixValue_succ key (by omega), prefixValue_succ key' (by omega)]
    have := digit_lt key n
    have := digit_lt key' n
    constructor
    · intro same
      rw [(ih (by omega)).mp fun i hi => same i (by omega), same n (by omega)]
    · intro eq
      have digits : digit key n = digit key' n := by omega
      have prefixes : prefixValue key n = prefixValue key' n := by omega
      intro i hi
      rcases Nat.lt_or_eq_of_le (Nat.le_of_lt_succ hi) with lt | rfl
      · exact (ih (by omega)).mpr prefixes i lt
      · exact digits

/-- The prefix of the key with value `x`. -/
theorem prefixValue_ofNat {x : Nat} (hx : x < 2 ^ 256) (n : Nat) :
    prefixValue (BitVec.ofNat 256 x) n = x / 2 ^ (4 * (64 - n)) := by
  rw [prefixValue, BitVec.toNat_ofNat, Nat.mod_eq_of_lt hx]

theorem prefixValue_lt (key : Key) {n : Nat} (hn : n ≤ 64) : prefixValue key n < 2 ^ (4 * n) := by
  rw [prefixValue, Nat.div_lt_iff_lt_mul (Nat.two_pow_pos _), ← Nat.pow_add,
    show 4 * n + 4 * (64 - n) = 256 by omega]
  exact key.isLt

/-! ### Reading nibbles from bytes -/

theorem and_f0 (b : UInt8) :
    (b &&& 0xf0).toNat / 16 = b.toNat / 16 ∧ (b &&& 0xf0).toNat % 16 = 0 := by
  have bytes : ∀ x < 256, (x &&& 240) / 16 = x / 16 ∧ (x &&& 240) % 16 = 0 := by decide +kernel
  exact bytes b.toNat b.toNat_lt

theorem byteAt_of_lt (bytes : NibblesBytes) {j : Nat} (hj : j < 32) : byteAt bytes j = bytes[j] := by
  simp [byteAt, hj]

theorem nibbleAt_setIfInBounds (x : Nibbles) {j : Nat} (hj : j < 32) (byte : UInt8) (i : Nat) (c : Nat) :
    nibbleAt ⟨c, x.bytes.setIfInBounds j byte⟩ i =
      if i / 2 = j then (if i % 2 = 0 then byte.toNat / 16 else byte.toNat % 16) else x.nibbleAt i := by
  unfold nibbleAt byteAt
  by_cases same : i / 2 = j
  · subst same
    simp [Vector.getElem?_setIfInBounds_self_of_lt hj]
  · simp [Vector.getElem?_setIfInBounds_ne (Ne.symm same), same]

/-- `Nibbles::new` stores the first `n` digits of the key and zeros after them. -/
theorem nibbleAt_new (key : Key) {n i : Nat} (hi : i < 64) :
    (new key n).nibbleAt i = if i < n then digit key i else 0 := by
  have hj : i / 2 < 32 := by omega
  have byte : byteAt (new key n).bytes (i / 2) =
      if i / 2 < (n + 1) / 2 then
        (if n % 2 = 1 ∧ i / 2 = n / 2 then key.toBigEndian[i / 2] &&& 0xf0 else key.toBigEndian[i / 2])
      else 0 := by
    simp [new, byteAt_of_lt _ hj]
  unfold nibbleAt
  rw [byte]
  have high := toBigEndian_high key hj
  have low := toBigEndian_low key hj
  have masked := and_f0 key.toBigEndian[i / 2]
  by_cases inside : i / 2 < (n + 1) / 2
  · by_cases cut : n % 2 = 1 ∧ i / 2 = n / 2
    · -- the byte holding the last nibble keeps only its high half
      rw [if_pos inside, if_pos cut]
      by_cases even : i % 2 = 0
      · rw [if_pos even, masked.1, high, show 2 * (i / 2) = i by omega,
          if_pos (show i < n by omega)]
      · rw [if_neg even, masked.2, if_neg (show ¬ i < n by omega)]
    · rw [if_pos inside, if_neg cut, if_pos (show i < n by omega)]
      by_cases even : i % 2 = 0
      · rw [if_pos even, high, show 2 * (i / 2) = i by omega]
      · rw [if_neg even, low, show 2 * (i / 2) + 1 = i by omega]
  · rw [if_neg inside, if_neg (show ¬ i < n by omega)]
    split <;> rfl

theorem canonical_new (key : Key) {n : Nat} (hn : n ≤ 64) : Canonical (new key n) := by
  refine ⟨hn, fun i le lt => ?_⟩
  rw [nibbleAt_new key lt, if_neg (by simp [new] at le; omega)]

/-- Bytes are determined by the nibbles they store. -/
theorem bytes_eq_of_nibbleAt {x y : Nibbles} (same : ∀ i < 64, x.nibbleAt i = y.nibbleAt i) :
    x.bytes = y.bytes := by
  apply Vector.ext
  intro j hj
  have high := same (2 * j) (by omega)
  have low := same (2 * j + 1) (by omega)
  rw [nibbleAt, nibbleAt, if_pos (show (2 * j) % 2 = 0 by omega), if_pos (show (2 * j) % 2 = 0 by omega),
    show 2 * j / 2 = j by omega, byteAt_of_lt _ hj, byteAt_of_lt _ hj] at high
  rw [nibbleAt, nibbleAt, if_neg (show ¬ (2 * j + 1) % 2 = 0 by omega),
    if_neg (show ¬ (2 * j + 1) % 2 = 0 by omega), show (2 * j + 1) / 2 = j by omega,
    byteAt_of_lt _ hj, byteAt_of_lt _ hj] at low
  apply UInt8.toNat_inj.mp
  rw [← Nat.div_add_mod x.bytes[j].toNat 16, ← Nat.div_add_mod y.bytes[j].toNat 16, high, low]

theorem ext_nibbleAt {x y : Nibbles} (count : x.nibbleCount = y.nibbleCount)
    (same : ∀ i < 64, x.nibbleAt i = y.nibbleAt i) : x = y := by
  cases x; cases y
  simp only [mk.injEq]
  exact ⟨count, bytes_eq_of_nibbleAt same⟩

/-! ### Prefixes of keys -/

@[simp] theorem new_nibbleCount (key : Key) (n : Nat) : (new key n).nibbleCount = n := rfl

@[simp] theorem EMPTY_nibbleCount : EMPTY.nibbleCount = 0 := rfl

/-- Two keys have the same `n`-nibble prefix iff they agree on their first `n` digits. -/
theorem new_eq_new_iff {key key' : Key} {n : Nat} :
    new key n = new key' n ↔ ∀ i < n, i < 64 → digit key i = digit key' i := by
  constructor
  · intro eq i hi small
    have digits := congrArg (fun x => nibbleAt x i) eq
    simp only [nibbleAt_new _ small, if_pos hi] at digits
    exact digits
  · intro same
    apply ext_nibbleAt (by rw [new_nibbleCount, new_nibbleCount])
    intro i hi
    rw [nibbleAt_new _ hi, nibbleAt_new _ hi]
    split
    · next lt => exact same i lt hi
    · rfl

theorem new_zero (key : Key) : new key 0 = EMPTY := by
  apply ext_nibbleAt (by rw [new_nibbleCount]; rfl)
  intro i hi
  have zero : byteAt EMPTY.bytes (i / 2) = 0 := by
    rw [byteAt_of_lt _ (by omega)]
    exact Vector.getElem_replicate _
  rw [nibbleAt_new _ hi, if_neg (Nat.not_lt_zero i), nibbleAt, zero]
  split <;> rfl

/-- Two keys have the same `n`-nibble prefix iff their prefixes are equal numbers. -/
theorem new_eq_new_iff_prefixValue {key key' : Key} {n : Nat} (hn : n ≤ 64) :
    new key n = new key' n ↔ prefixValue key n = prefixValue key' n := by
  rw [new_eq_new_iff, ← digits_eq_iff hn]
  exact ⟨fun same i hi => same i hi (by omega), fun same i hi _ => same i hi⟩

theorem new_succ_eq_new_succ_iff {key key' : Key} {n : Nat} (hn : n < 64) :
    new key (n + 1) = new key' (n + 1) ↔ new key n = new key' n ∧ digit key n = digit key' n := by
  rw [new_eq_new_iff, new_eq_new_iff]
  constructor
  · intro same
    exact ⟨fun i hi small => same i (by omega) small, same n (by omega) hn⟩
  · rintro ⟨same, last⟩ i hi small
    rcases Nat.lt_or_eq_of_le (Nat.le_of_lt_succ hi) with lt | rfl
    · exact same i lt small
    · exact last

/-- Below an `n`-nibble prefix, every digit occurs at position `n`. -/
theorem exists_key_with_digit (key : Key) {n d : Nat} (hn : n < 64) (hd : d < 16) :
    ∃ key', new key' n = new key n ∧ digit key' n = d := by
  have small := prefixValue_lt key (le_of_lt hn)
  have width : 2 ^ (4 * (64 - n)) = 2 ^ (4 * (63 - n)) * 16 := by
    rw [show (16 : Nat) = 2 ^ 4 by rfl, ← Nat.pow_add]; congr 1; omega
  have total : 2 ^ 256 = 2 ^ (4 * n) * 16 * 2 ^ (4 * (63 - n)) := by
    rw [show (16 : Nat) = 2 ^ 4 by rfl, ← Nat.pow_add, ← Nat.pow_add]; congr 1; omega
  have fits : (16 * prefixValue key n + d) * 2 ^ (4 * (63 - n)) < 2 ^ 256 := by
    rw [total]
    exact Nat.mul_lt_mul_of_pos_right (by omega) (Nat.two_pow_pos _)
  refine ⟨BitVec.ofNat 256 ((16 * prefixValue key n + d) * 2 ^ (4 * (63 - n))), ?_, ?_⟩
  · rw [new_eq_new_iff_prefixValue (le_of_lt hn), prefixValue_ofNat fits, width,
      ← Nat.div_div_eq_div_mul, Nat.mul_div_cancel _ (Nat.two_pow_pos _)]
    omega
  · rw [digit, BitVec.toNat_ofNat, Nat.mod_eq_of_lt fits,
      Nat.mul_div_cancel _ (Nat.two_pow_pos _)]
    omega

theorem byteAt_high (x : Nibbles) (j : Nat) : (byteAt x.bytes j).toNat / 16 = x.nibbleAt (2 * j) := by
  rw [nibbleAt, if_pos (by omega), show 2 * j / 2 = j by omega]

theorem byteAt_low (x : Nibbles) (j : Nat) : (byteAt x.bytes j).toNat % 16 = x.nibbleAt (2 * j + 1) := by
  rw [nibbleAt, if_neg (by omega), show (2 * j + 1) / 2 = j by omega]

/-- `split_last` of a canonical sequence that is not empty: its last nibble, and the sequence
with that nibble cleared. -/
theorem nibbleAt_splitLast {y : Nibbles} (canonical : Canonical y) (nonempty : 0 < y.nibbleCount) :
    ∃ z last, y.splitLast = some (z, last) ∧ last.toNat = y.nibbleAt (y.nibbleCount - 1) ∧
      z.nibbleCount = y.nibbleCount - 1 ∧
      ∀ i < 64, z.nibbleAt i = if i < y.nibbleCount - 1 then y.nibbleAt i else 0 := by
  obtain ⟨bounded, zeros⟩ := canonical
  -- nibbles of other bytes are kept, and are zero from the last one on
  have untouched : ∀ i < 64, i / 2 ≠ (y.nibbleCount - 1) / 2 →
      y.nibbleAt i = if i < y.nibbleCount - 1 then y.nibbleAt i else 0 := by
    intro i hi other
    by_cases below : i < y.nibbleCount - 1
    · rw [if_pos below]
    · rw [if_neg below, zeros i (by omega) hi]
  unfold splitLast
  rw [if_neg (by omega)]
  by_cases odd : y.nibbleCount % 2 = 1
  · -- the last nibble is the high half of its byte, which is cleared
    simp only [if_pos odd]
    refine ⟨_, _, rfl, ?_, rfl, ?_⟩
    · rw [UInt8.toNat_shiftRight, show (4 : UInt8).toNat % 8 = 4 from rfl, Nat.shiftRight_eq_div_pow,
        byteAt_high, show 2 * ((y.nibbleCount - 1) / 2) = y.nibbleCount - 1 by omega]
    · intro i hi
      rw [nibbleAt_setIfInBounds _ (by omega)]
      by_cases cleared : i / 2 = (y.nibbleCount - 1) / 2
      · rw [if_pos cleared, if_neg (show ¬ i < y.nibbleCount - 1 by omega)]
        split <;> rfl
      · rw [if_neg cleared]
        exact untouched i hi cleared
  · -- the last nibble is the low half of its byte, which is masked off
    simp only [if_neg odd]
    refine ⟨_, _, rfl, ?_, rfl, ?_⟩
    · rw [UInt8.toNat_and, show (15 : UInt8).toNat = 2 ^ 4 - 1 from rfl, Nat.and_two_pow_sub_one_eq_mod,
        byteAt_low, show 2 * ((y.nibbleCount - 1) / 2) + 1 = y.nibbleCount - 1 by omega]
    · intro i hi
      rw [nibbleAt_setIfInBounds _ (by omega)]
      have masked := and_f0 (byteAt y.bytes ((y.nibbleCount - 1) / 2))
      by_cases kept : i / 2 = (y.nibbleCount - 1) / 2
      · rw [if_pos kept, masked.1, masked.2, byteAt_high]
        rcases (show i = y.nibbleCount - 2 ∨ i = y.nibbleCount - 1 by omega) with first | last
        · rw [if_pos (show i % 2 = 0 by omega), if_pos (show i < y.nibbleCount - 1 by omega),
            show 2 * ((y.nibbleCount - 1) / 2) = i by omega]
        · rw [if_neg (show ¬ i % 2 = 0 by omega), if_neg (show ¬ i < y.nibbleCount - 1 by omega)]
      · rw [if_neg kept]
        exact untouched i hi kept

/-- `push` onto a canonical sequence that is not full: the nibble goes right after the others. -/
theorem nibbleAt_push {x : Nibbles} (canonical : Canonical x) (notFull : x.nibbleCount < 64)
    {d : UInt8} (small : d.toNat < 16) :
    ∃ y, x.push d = some y ∧ y.nibbleCount = x.nibbleCount + 1 ∧
      ∀ i < 64, y.nibbleAt i =
        if i < x.nibbleCount then x.nibbleAt i else if i = x.nibbleCount then d.toNat else 0 := by
  obtain ⟨_, zeros⟩ := canonical
  have room : ¬ x.nibbleCount = KEY_SIZE * 2 := by unfold KEY_SIZE; omega
  -- nibbles of other bytes are kept, and are zero after the count
  have untouched : ∀ i < 64, i / 2 ≠ x.nibbleCount / 2 →
      x.nibbleAt i = if i < x.nibbleCount then x.nibbleAt i else if i = x.nibbleCount then d.toNat else 0 := by
    intro i hi other
    by_cases below : i < x.nibbleCount
    · rw [if_pos below]
    · rw [if_neg below, if_neg (by omega), zeros i (by omega) hi]
  unfold push
  rw [if_neg room]
  refine ⟨_, rfl, rfl, ?_⟩
  intro i hi
  by_cases even : (x.nibbleCount + 1) % 2 = 0
  · -- an odd count: the nibble goes into the low half of byte `count / 2`, which is zero
    rw [if_pos even, nibbleAt_setIfInBounds _ (by omega)]
    by_cases target : i / 2 = x.nibbleCount / 2
    · have high := byteAt_high x (x.nibbleCount / 2)
      have low := byteAt_low x (x.nibbleCount / 2)
      rw [show 2 * (x.nibbleCount / 2) = x.nibbleCount - 1 by omega] at high
      rw [show 2 * (x.nibbleCount / 2) + 1 = x.nibbleCount by omega, zeros _ (Nat.le_refl _) notFull] at low
      have byteLt := UInt8.toNat_lt (byteAt x.bytes (x.nibbleCount / 2))
      have sum : (byteAt x.bytes (x.nibbleCount / 2) + d).toNat =
          16 * x.nibbleAt (x.nibbleCount - 1) + d.toNat := by
        rw [UInt8.toNat_add, Nat.mod_eq_of_lt (by omega)]
        omega
      rw [if_pos target, sum]
      rcases (show i = x.nibbleCount - 1 ∨ i = x.nibbleCount by omega) with first | last
      · rw [if_pos (show i % 2 = 0 by omega), if_pos (show i < x.nibbleCount by omega), first]
        omega
      · rw [if_neg (show ¬ i % 2 = 0 by omega), if_neg (show ¬ i < x.nibbleCount by omega), if_pos last]
        omega
    · rw [if_neg target]
      exact untouched i hi target
  · -- an even count: the nibble becomes the high half of byte `count / 2`
    rw [if_neg even, nibbleAt_setIfInBounds _ (by omega)]
    by_cases target : i / 2 = x.nibbleCount / 2
    · have shifted : (d <<< 4).toNat = 16 * d.toNat := by
        rw [UInt8.toNat_shiftLeft, show (4 : UInt8).toNat % 8 = 4 from rfl, Nat.shiftLeft_eq,
          show 2 ^ 4 = 16 from rfl, show 2 ^ 8 = 256 from rfl, Nat.mod_eq_of_lt (by omega)]
        omega
      rw [if_pos target, shifted]
      rcases (show i = x.nibbleCount ∨ i = x.nibbleCount + 1 by omega) with first | last
      · rw [if_pos (show i % 2 = 0 by omega), if_neg (show ¬ i < x.nibbleCount by omega), if_pos first]
        omega
      · rw [if_neg (show ¬ i % 2 = 0 by omega), if_neg (show ¬ i < x.nibbleCount by omega),
          if_neg (show ¬ i = x.nibbleCount by omega)]
        omega
    · rw [if_neg target]
      exact untouched i hi target

/-- Splitting the last nibble off an `n + 1`-nibble prefix gives the `n`-nibble prefix and nibble
`n` of the key. -/
theorem splitLast_new (key : Key) {n : Nat} (hn : n < 64) :
    (new key (n + 1)).splitLast = some (new key n, nibble key n) := by
  obtain ⟨z, last, split, lastNibble, count, nibbles⟩ :=
    nibbleAt_splitLast (canonical_new key (show n + 1 ≤ 64 by omega)) (by simp)
  rw [new_nibbleCount, Nat.add_sub_cancel] at lastNibble count nibbles
  have lastEq : last = nibble key n := by
    apply UInt8.toNat_inj.mp
    rw [lastNibble, nibbleAt_new _ hn, if_pos (by omega), nibble_toNat key hn]
  have prefixEq : z = new key n := by
    apply ext_nibbleAt (by rw [count, new_nibbleCount])
    intro i hi
    rw [nibbles i hi, nibbleAt_new _ hi, nibbleAt_new _ hi]
    by_cases below : i < n
    · rw [if_pos below, if_pos below, if_pos (by omega)]
    · rw [if_neg below, if_neg below]
  rw [split, lastEq, prefixEq]

/-- Pushing nibble `n` of the key onto its `n`-nibble prefix gives the `n + 1`-nibble prefix. -/
theorem push_new (key : Key) {n : Nat} (hn : n < 64) :
    (new key n).push (nibble key n) = some (new key (n + 1)) := by
  obtain ⟨y, pushed, count, nibbles⟩ :=
    nibbleAt_push (canonical_new key (le_of_lt hn)) (by simpa using hn) (nibble_lt key hn)
  rw [new_nibbleCount] at count nibbles
  rw [pushed, Option.some.injEq]
  apply ext_nibbleAt (by rw [count, new_nibbleCount])
  intro i hi
  rw [nibbles i hi, nibbleAt_new _ hi, nibbleAt_new _ hi, nibble_toNat key hn]
  by_cases below : i < n
  · rw [if_pos below, if_pos below, if_pos (by omega)]
  · by_cases last : i = n
    · rw [if_neg below, if_pos last, if_pos (by omega), last]
    · rw [if_neg below, if_neg last, if_neg (by omega)]

end Nibbles

end ZksyncEra.MerkleTree
