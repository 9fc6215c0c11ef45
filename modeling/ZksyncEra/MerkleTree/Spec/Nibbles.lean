import ZksyncEra.MerkleTree.Nibbles
import ZksyncEra.MerkleTree.Serialization

/-!
What the canonical form of nibble sequences gives (`types/internal.rs`): `common_prefix` of two
canonical sequences of one length is their longest common prefix, read on the list of nibbles,
and the database key of a node reads back to the node key.

`common_prefix` compares whole bytes; `nibbleAt_commonPrefix` reads the byte where the sequences
part into its two halves, and the list statement follows from it. The database key stores only
the bytes that hold nibbles, so reading it back needs the zero bytes above the count.
-/

namespace ZksyncEra.MerkleTree

namespace Nibbles

/-- The nibbles of a sequence, in order. -/
def toList (x : Nibbles) : List Nat :=
  (List.range x.nibbleCount).map x.nibbleAt

theorem length_toList (x : Nibbles) : x.toList.length = x.nibbleCount := by
  simp [toList]

theorem getElem_toList (x : Nibbles) {i : Nat} (inside : i < x.toList.length) :
    x.toList[i] = x.nibbleAt i := by
  simp [toList]

/-- A sequence that agrees with `x` below its count lists the first nibbles of `x`. -/
theorem toList_eq_take {r x : Nibbles} (le : r.nibbleCount ≤ x.nibbleCount)
    (agree : ∀ i < r.nibbleCount, r.nibbleAt i = x.nibbleAt i) :
    r.toList = x.toList.take r.nibbleCount := by
  rw [toList, toList, ← List.map_take, List.take_range, Nat.min_eq_left le]
  exact List.map_congr_left fun i member => agree i (List.mem_range.mp member)

theorem byteAt_mapIdx (bytes : NibblesBytes) (f : Nat → UInt8 → UInt8) {j : Nat} (hj : j < 32) :
    byteAt (bytes.mapIdx f) j = f j (byteAt bytes j) := by
  rw [byteAt_of_lt _ hj, byteAt_of_lt _ hj, Vector.getElem_mapIdx]

/-- Two bytes are equal iff their halves are: the two nibbles they hold. -/
theorem byteAt_eq_iff (x y : Nibbles) (j : Nat) :
    byteAt x.bytes j = byteAt y.bytes j ↔
      x.nibbleAt (2 * j) = y.nibbleAt (2 * j) ∧ x.nibbleAt (2 * j + 1) = y.nibbleAt (2 * j + 1) := by
  rw [← byteAt_high, ← byteAt_high, ← byteAt_low, ← byteAt_low, ← UInt8.toNat_inj]
  omega

/-- The high halves of two bytes are equal iff the nibbles they hold are. -/
theorem and_f0_eq_iff (x y : Nibbles) (j : Nat) :
    byteAt x.bytes j &&& 0xf0 = byteAt y.bytes j &&& 0xf0 ↔ x.nibbleAt (2 * j) = y.nibbleAt (2 * j) := by
  have maskedX := and_f0 (byteAt x.bytes j)
  have maskedY := and_f0 (byteAt y.bytes j)
  rw [← byteAt_high, ← byteAt_high, ← UInt8.toNat_inj]
  omega

/-- `common_prefix` of canonical sequences of one length keeps the nibbles of `x` up to the
first place where the sequences differ, and clears the rest. -/
theorem nibbleAt_commonPrefix {x y : Nibbles} (cx : Canonical x) (cy : Canonical y)
    (same : x.nibbleCount = y.nibbleCount) :
    (x.commonPrefix y).nibbleCount ≤ x.nibbleCount ∧
    (∀ i < 64, (x.commonPrefix y).nibbleAt i =
      if i < (x.commonPrefix y).nibbleCount then x.nibbleAt i else 0) ∧
    (∀ i < (x.commonPrefix y).nibbleCount, x.nibbleAt i = y.nibbleAt i) ∧
    ((x.commonPrefix y).nibbleCount < x.nibbleCount →
      x.nibbleAt (x.commonPrefix y).nibbleCount ≠ y.nibbleAt (x.commonPrefix y).nibbleCount) := by
  obtain ⟨bounded, zerosX⟩ := cx
  obtain ⟨_, zerosY⟩ := cy
  unfold commonPrefix
  split
  · next none =>
    -- no byte differs: the nibbles agree up to the count
    have agree : ∀ i < x.nibbleCount, x.nibbleAt i = y.nibbleAt i := by
      intro i hi
      have equal := List.find?_eq_none.mp none (i / 2) (List.mem_range.mpr (by omega))
      have halves := (byteAt_eq_iff x y (i / 2)).mp (by simpa using equal)
      rcases Nat.mod_two_eq_zero_or_one i with even | odd
      · rw [show i = 2 * (i / 2) by omega]
        exact halves.1
      · rw [show i = 2 * (i / 2) + 1 by omega]
        exact halves.2
    refine ⟨Nat.le_refl _, ?_, agree, fun lt => absurd lt (Nat.lt_irrefl _)⟩
    intro i hi
    split
    · rfl
    · next above => exact zerosX i (by omega) hi
  · next j found =>
    obtain ⟨differ, member, earlier⟩ := List.find?_range_eq_some.mp found
    have inside := List.mem_range.mp member
    have before : ∀ i < 2 * j, x.nibbleAt i = y.nibbleAt i := by
      intro i hi
      have halves := (byteAt_eq_iff x y (i / 2)).mp (by simpa using earlier (i / 2) (by omega))
      rcases Nat.mod_two_eq_zero_or_one i with even | odd
      · rw [show i = 2 * (i / 2) by omega]
        exact halves.1
      · rw [show i = 2 * (i / 2) + 1 by omega]
        exact halves.2
    have parted : ¬ (x.nibbleAt (2 * j) = y.nibbleAt (2 * j) ∧
        x.nibbleAt (2 * j + 1) = y.nibbleAt (2 * j + 1)) := by
      rw [← byteAt_eq_iff]
      simpa using differ
    -- the bytes below `j` are kept, and the high half of byte `j` when it is shared
    have kept : ∀ (f : Nat → UInt8 → UInt8) (c : Nat) (i : Nat), i < 64 → i / 2 < j →
        (∀ k < j, ∀ b, f k b = b) → nibbleAt ⟨c, x.bytes.mapIdx f⟩ i = x.nibbleAt i := by
      intro f c i hi below keep
      rw [nibbleAt, nibbleAt, byteAt_mapIdx _ _ (by omega), keep _ below]
    split
    · next highSame =>
      -- the high halves agree: the prefix ends after nibble `2 * j`
      have high := (and_f0_eq_iff x y j).mp highSame
      have masked := and_f0 (byteAt x.bytes j)
      refine ⟨by dsimp only; omega, ?_, ?_, ?_⟩
      · intro i hi
        dsimp only
        by_cases below : i / 2 < j
        · rw [kept _ _ i hi below fun k lt b => by simp [Nat.ne_of_lt lt, Nat.not_lt.mpr (Nat.le_of_lt lt)],
            if_pos (by omega)]
        · rw [nibbleAt, byteAt_mapIdx _ _ (by omega)]
          by_cases here : i / 2 = j
          · rw [if_pos here]
            rcases Nat.mod_two_eq_zero_or_one i with even | odd
            · rw [if_pos even, if_pos (show i < j * 2 + 1 by omega), here, masked.1, byteAt_high,
                show 2 * j = i by omega]
            · rw [if_neg (by omega), if_neg (show ¬ i < j * 2 + 1 by omega), here, masked.2]
          · rw [if_neg here, if_pos (show i / 2 > j by omega), if_neg (show ¬ i < j * 2 + 1 by omega)]
            split <;> rfl
      · intro i hi
        rcases Nat.lt_or_ge i (2 * j) with lt | ge
        · exact before i lt
        · rw [show i = 2 * j by dsimp only at hi; omega]
          exact high
      · intro _
        exact fun low => parted ⟨high, by dsimp only at low; rwa [show j * 2 + 1 = 2 * j + 1 by omega] at low⟩
    · next highDiffer =>
      -- the high halves differ: the prefix ends before byte `j`
      have high := mt (and_f0_eq_iff x y j).mpr highDiffer
      refine ⟨by dsimp only; omega, ?_, ?_, ?_⟩
      · intro i hi
        dsimp only
        by_cases below : i / 2 < j
        · rw [kept _ _ i hi below fun k lt b => by simp [Nat.not_le.mpr lt], if_pos (by omega)]
        · rw [nibbleAt, byteAt_mapIdx _ _ (by omega), if_pos (Nat.not_lt.mp below),
            if_neg (show ¬ i < j * 2 by omega)]
          split <;> rfl
      · intro i hi
        exact before i (by dsimp only at hi; omega)
      · intro _
        dsimp only
        rwa [show j * 2 = 2 * j by omega]

/-- Pushing a nibble onto a canonical sequence that is not full keeps it canonical, and
`split_last` takes the nibble back off. -/
theorem splitLast_push {x : Nibbles} (canonical : Canonical x) (notFull : x.nibbleCount < 64)
    {d : UInt8} (small : d.toNat < 16) :
    ∃ y, x.push d = some y ∧ Canonical y ∧ y.splitLast = some (x, d) := by
  obtain ⟨y, pushed, count, nibbles⟩ := nibbleAt_push canonical notFull small
  have canonicalY : Canonical y :=
    ⟨by omega, fun i ge lt => by rw [nibbles i lt, if_neg (by omega), if_neg (by omega)]⟩
  obtain ⟨z, last, split, lastNibble, countZ, nibblesZ⟩ := nibbleAt_splitLast canonicalY (by omega)
  rw [count, Nat.add_sub_cancel] at lastNibble countZ nibblesZ
  have lastEq : last = d := by
    apply UInt8.toNat_inj.mp
    rw [lastNibble, nibbles _ notFull, if_neg (Nat.lt_irrefl _), if_pos rfl]
  have prefixEq : z = x := by
    apply ext_nibbleAt countZ
    intro i hi
    rw [nibblesZ i hi]
    split
    · next below => rw [nibbles i hi, if_pos below]
    · next above => exact (canonical.2 i (by omega) hi).symm
  exact ⟨y, pushed, canonicalY, by rw [split, lastEq, prefixEq]⟩

/-- `Nibbles::nibble` reads the nibbles of the full prefix of a key. -/
theorem nibbleAt_new_full (key : Key) {i : Nat} (hi : i < 64) :
    (new key 64).nibbleAt i = (nibble key i).toNat := by
  rw [nibbleAt_new key hi, if_pos hi, nibble_toNat key hi]

/-- For canonical sequences of one length, `common_prefix` is canonical and its nibbles are the
longest common prefix of theirs. -/
theorem commonPrefix_isLongest {x y : Nibbles} (cx : Canonical x) (cy : Canonical y)
    (same : x.nibbleCount = y.nibbleCount) :
    Canonical (x.commonPrefix y) ∧ (x.commonPrefix y).toList <+: x.toList ∧
      (x.commonPrefix y).toList <+: y.toList ∧
      ∀ l, l <+: x.toList → l <+: y.toList → l <+: (x.commonPrefix y).toList := by
  obtain ⟨le, nibbles, agree, parted⟩ := nibbleAt_commonPrefix cx cy same
  have ofX : ∀ i < (x.commonPrefix y).nibbleCount, (x.commonPrefix y).nibbleAt i = x.nibbleAt i := by
    intro i hi
    rw [nibbles i (by have := cx.1; omega), if_pos hi]
  have takeX := toList_eq_take le ofX
  have takeY := toList_eq_take (same ▸ le) fun i hi => (ofX i hi).trans (agree i hi)
  refine ⟨⟨by have := cx.1; omega, fun i ge lt => by rw [nibbles i lt, if_neg (by omega)]⟩,
    takeX ▸ List.take_prefix _ _, takeY ▸ List.take_prefix _ _, ?_⟩
  intro l inX inY
  -- a common prefix cannot reach the first place where the sequences differ
  have short : l.length ≤ (x.commonPrefix y).nibbleCount := by
    by_contra long
    have lengthX := inX.length_le
    rw [length_toList] at lengthX
    have first := inX.getElem (show (x.commonPrefix y).nibbleCount < l.length by omega)
    have second := inY.getElem (show (x.commonPrefix y).nibbleCount < l.length by omega)
    rw [getElem_toList] at first second
    exact parted (by omega) (first.symm.trans second)
  rw [List.prefix_iff_eq_take.mp inX, takeX]
  exact List.take_prefix_take_left short

end Nibbles

/-! ### Node keys in the database -/

open BigEndian

theorem Nibbles.byte_eq_zero_of_canonical {x : Nibbles} (canonical : Nibbles.Canonical x) {j : Nat}
    (hj : j < 32) (beyond : (x.nibbleCount + 1) / 2 ≤ j) : x.bytes[j] = 0 := by
  have high := Nibbles.byteAt_high x j
  have low := Nibbles.byteAt_low x j
  rw [canonical.2 (2 * j) (by omega) (by omega), Nibbles.byteAt_of_lt _ hj] at high
  rw [canonical.2 (2 * j + 1) (by omega) (by omega), Nibbles.byteAt_of_lt _ hj] at low
  apply UInt8.toNat_inj.mp
  rw [UInt8.toNat_zero]
  omega

/-- A node key with a `u64` version and canonical nibbles is read back from its database key. -/
theorem NodeKey.fromDbKey_toDbKey (key : NodeKey) (version : key.version < 2 ^ 64)
    (canonical : Nibbles.Canonical key.nibbles) : NodeKey.fromDbKey key.toDbKey = some key := by
  obtain ⟨v, ⟨c, bytes⟩⟩ := key
  have bounded : c ≤ 64 := canonical.1
  have count : c.toUInt8.toNat = c := by
    rw [Nat.toUInt8_eq, UInt8.toNat_ofNat_of_lt' (by unfold UInt8.size; omega)]
  have length : (encode 8 v ++ [c.toUInt8] ++ bytes.toList.take ((c + 1) / 2)).length =
      9 + (c + 1) / 2 := by
    simp only [List.length_append, length_encode, List.length_singleton, List.length_take,
      Vector.length_toList]
    omega
  have header : (encode 8 v ++ [c.toUInt8] ++ bytes.toList.take ((c + 1) / 2)).take 8 = encode 8 v := by
    rw [List.append_assoc, List.take_left' (length_encode 8 v)]
  have countByte : (encode 8 v ++ [c.toUInt8] ++ bytes.toList.take ((c + 1) / 2)).getD 8 0 = c.toUInt8 := by
    rw [List.append_assoc, List.getD_append_right _ _ _ _ (by rw [length_encode])]
    simp
  -- the bytes of the nibbles: those stored, then the zeros of the canonical form
  have nibbles : (Vector.ofFn fun j : Fin 32 => if j.val < (c + 1) / 2 then
      (encode 8 v ++ [c.toUInt8] ++ bytes.toList.take ((c + 1) / 2)).getD (9 + j.val) 0 else 0) = bytes := by
    apply Vector.ext
    intro j hj
    rw [Vector.getElem_ofFn]
    split
    · next stored =>
      rw [List.append_assoc, List.getD_append_right _ _ _ _ (by rw [length_encode]; omega)]
      rw [length_encode, show 9 + j - 8 = j + 1 by omega, List.singleton_append, List.getD_cons_succ,
        List.getD_eq_getElem?_getD, List.getElem?_take, if_pos stored]
      simp [hj]
    · next beyond => exact (Nibbles.byte_eq_zero_of_canonical canonical hj (by simpa using beyond)).symm
  unfold NodeKey.fromDbKey NodeKey.toDbKey
  simp only [length, header, countByte, count, decode_encode_of_lt (show v < 256 ^ 8 by simpa using version)]
  rw [if_neg (by omega), if_neg (by unfold KEY_SIZE; omega), if_neg (by omega), nibbles]
  rfl

/-- Nibble sequences keep their canonical form through `new` and `push`, and `split_last`,
`push`, `nibble`, `common_prefix` and the database key of a node agree with one another on it. -/
theorem nibbles_canonical_operations :
    (∀ (key : Key) (n : Nat), n ≤ 64 → Nibbles.Canonical (Nibbles.new key n)) ∧
    (∀ (x : Nibbles) (d : UInt8), Nibbles.Canonical x → x.nibbleCount < 64 → d.toNat < 16 →
      ∃ y, x.push d = some y ∧ Nibbles.Canonical y ∧ y.splitLast = some (x, d)) ∧
    (∀ (key : Key) (i : Nat), i < 64 → (Nibbles.new key 64).nibbleAt i = (Nibbles.nibble key i).toNat) ∧
    (∀ (key : Key) (n : Nat), n < 64 →
      (Nibbles.new key n).push (Nibbles.nibble key n) = some (Nibbles.new key (n + 1))) ∧
    (∀ x y : Nibbles, Nibbles.Canonical x → Nibbles.Canonical y → x.nibbleCount = y.nibbleCount →
      Nibbles.Canonical (x.commonPrefix y) ∧ (x.commonPrefix y).toList <+: x.toList ∧
        (x.commonPrefix y).toList <+: y.toList ∧
        ∀ l, l <+: x.toList → l <+: y.toList → l <+: (x.commonPrefix y).toList) ∧
    (∀ key : NodeKey, key.version < 2 ^ 64 → Nibbles.Canonical key.nibbles →
      NodeKey.fromDbKey key.toDbKey = some key) :=
  ⟨fun key _ bounded => Nibbles.canonical_new key bounded,
    fun _ _ canonical notFull small => Nibbles.splitLast_push canonical notFull small,
    fun key _ hi => Nibbles.nibbleAt_new_full key hi,
    fun key _ hi => Nibbles.push_new key hi,
    fun _ _ cx cy same => Nibbles.commonPrefix_isLongest cx cy same,
    fun key version canonical => NodeKey.fromDbKey_toDbKey key version canonical⟩

theorem nibbles_canonical_operations_abc :
    Nibbles.Canonical (Nibbles.new 0xabc 3) ∧
    (∃ y, (Nibbles.new 0xabc 3).push 5 = some y ∧ Nibbles.Canonical y ∧
      y.splitLast = some (Nibbles.new 0xabc 3, 5)) ∧
    (Nibbles.new 0xabc 64).nibbleAt 63 = (Nibbles.nibble 0xabc 63).toNat ∧
    (Nibbles.new 0xabc 3).push (Nibbles.nibble 0xabc 3) = some (Nibbles.new 0xabc 4) ∧
    (Nibbles.Canonical ((Nibbles.new 0xabc 64).commonPrefix (Nibbles.new 0xabd 64)) ∧
      ((Nibbles.new 0xabc 64).commonPrefix (Nibbles.new 0xabd 64)).toList <+: (Nibbles.new 0xabc 64).toList ∧
      ((Nibbles.new 0xabc 64).commonPrefix (Nibbles.new 0xabd 64)).toList <+: (Nibbles.new 0xabd 64).toList ∧
      ∀ l, l <+: (Nibbles.new 0xabc 64).toList → l <+: (Nibbles.new 0xabd 64).toList →
        l <+: ((Nibbles.new 0xabc 64).commonPrefix (Nibbles.new 0xabd 64)).toList) ∧
    NodeKey.fromDbKey (NodeKey.toDbKey ⟨7, Nibbles.new 0xabc 3⟩) = some ⟨7, Nibbles.new 0xabc 3⟩ :=
  ⟨nibbles_canonical_operations.1 _ 3 (by decide),
    nibbles_canonical_operations.2.1 _ 5 (Nibbles.canonical_new _ (by decide)) (by decide) (by decide),
    nibbles_canonical_operations.2.2.1 _ 63 (by decide),
    nibbles_canonical_operations.2.2.2.1 _ 3 (by decide),
    nibbles_canonical_operations.2.2.2.2.1 _ _ (Nibbles.canonical_new _ (by decide))
      (Nibbles.canonical_new _ (by decide)) rfl,
    nibbles_canonical_operations.2.2.2.2.2 ⟨7, Nibbles.new 0xabc 3⟩ (by decide)
      (Nibbles.canonical_new _ (by decide))⟩

end ZksyncEra.MerkleTree
