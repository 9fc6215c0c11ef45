import ZksyncEra.MerkleTree.Serialization
import ZksyncEra.Writes.Spec.Compression

/-!
What the storage format reads back, for every codec of the `leb128` crate that reads back what it
writes and writes a `u64` in at most ten bytes (`Leb128.Codec.Lawful`).

Leaves and internal nodes read back as they were written, an internal node without its hash
cache (which is what its `PartialEq` ignores). A manifest reads back with the same tags, the
custom ones as the same map. A root reads back when its single-leaf case is as the tree stores
it: a leaf, or an internal node with one child. `Root::deserialize` reads a root with one leaf as
a leaf first; an internal node with one child is too short for a leaf, but one with more children
can parse as a leaf, and then the root reads back as that leaf (`deserialize_twoChildRoot`).
-/

namespace ZksyncEra.MerkleTree

open BigEndian

variable {leb128 : Leb128.Codec}

/-! ### Words and numbers -/

@[simp]
theorem U256.length_bytes (value : U256) : (U256.bytes value).length = 32 := by
  simp [U256.bytes]

@[simp]
theorem U256.fromBigEndian_bytes (value : U256) : U256.fromBigEndian (U256.bytes value) = value := by
  have fits : value.toNat < 256 ^ 32 := value.isLt
  apply BitVec.eq_of_toNat_eq
  simp only [U256.fromBigEndian, U256.bytes, Writes.toList_toBigEndian, decode_encode,
    BitVec.toNat_ofNat]
  rw [Nat.mod_eq_of_lt fits, Nat.mod_eq_of_lt value.isLt]

theorem readLeb128_write_append (lawful : leb128.Lawful) {E : Type} (n : Nat) (rest : List UInt8)
    (onError : E) : readLeb128 leb128 (leb128.write n ++ rest) onError = .ok (n, rest) := by
  simp [readLeb128, lawful.read_write_append]

theorem readLeb128_write (lawful : leb128.Lawful) {E : Type} (n : Nat) (onError : E) :
    readLeb128 leb128 (leb128.write n) onError = .ok (n, []) := by
  simpa using readLeb128_write_append lawful n [] onError

/-! ### Leaves -/

theorem LeafNode.deserialize_serialize (lawful : leb128.Lawful) (leaf : LeafNode) (strict : Bool) :
    LeafNode.deserialize leb128 (leaf.serialize leb128) strict = .ok leaf := by
  have long : ¬(leaf.serialize leb128).length < KEY_SIZE + HASH_SIZE := by
    simp only [LeafNode.serialize, List.length_append, U256.length_bytes, KEY_SIZE, HASH_SIZE]
    omega
  have key : (leaf.serialize leb128).take KEY_SIZE = U256.bytes leaf.fullKey := by
    simp [LeafNode.serialize, KEY_SIZE, List.take_left']
  have hash : ((leaf.serialize leb128).drop KEY_SIZE).take HASH_SIZE = U256.bytes leaf.valueHash := by
    simp [LeafNode.serialize, KEY_SIZE, HASH_SIZE, List.drop_left', List.take_left']
  have index : (leaf.serialize leb128).drop (KEY_SIZE + HASH_SIZE) = leb128.write leaf.leafIndex := by
    rw [← List.drop_drop, LeafNode.serialize, List.append_assoc,
      List.drop_left' (by simp [KEY_SIZE]), List.drop_left' (by simp [HASH_SIZE])]
  simp only [LeafNode.deserialize, long, if_false, key, hash, index, readLeb128_write lawful,
    U256.fromBigEndian_bytes]
  cases strict <;> rfl

/-! ### Internal nodes -/

/-- The two bits of the bitmap for the child at a nibble: its kind, or zero for no child. -/
def kindCode (childRef : Option ChildRef) : Nat := (childRef.map (·.kind.toNat)).getD 0

theorem kindCode_lt (childRef : Option ChildRef) : kindCode childRef < 4 := by
  rcases childRef with _ | ⟨hash, version, _ | _⟩ <;> simp [kindCode, ChildRef.kind, ChildKind.toNat]

theorem ChildKind.deserialize_kind (childRef : ChildRef) :
    ChildKind.deserialize childRef.kind.toNat = .ok childRef.kind := by
  unfold ChildRef.kind
  split <;> rfl

/-- A bit of an or-fold is set when it is set at the start or in one of the values. -/
theorem testBit_foldl_or {α : Type} (g : α → Nat) (entries : List α) (start t : Nat) :
    (entries.foldl (fun bitmap entry => bitmap ||| g entry) start).testBit t =
      (start.testBit t || entries.any fun entry => (g entry).testBit t) := by
  induction entries generalizing start with
  | nil => simp
  | cons entry entries ih =>
    rw [List.foldl_cons, ih, Nat.testBit_or, List.any_cons, Bool.or_assoc]

/-- The bits of a child's kind placed at its nibble: bits `2 * k` and `2 * k + 1`. -/
theorem testBit_kind_shiftLeft (code k t : Nat) (small : code < 4) :
    (code <<< (2 * k)).testBit t = (decide (2 * k ≤ t ∧ t < 2 * k + 2) && code.testBit (t - 2 * k)) := by
  rw [Nat.testBit_shiftLeft]
  by_cases above : 2 * k + 2 ≤ t
  · have wide : 4 ≤ 2 ^ (t - 2 * k) :=
      Nat.pow_le_pow_right (n := 2) (by decide) (show 2 ≤ t - 2 * k by omega)
    have high : code.testBit (t - 2 * k) = false :=
      Nat.testBit_eq_false_of_lt (Nat.lt_of_lt_of_le small wide)
    simp [high]
  · by_cases below : 2 * k ≤ t
    · simp [below, show t < 2 * k + 2 by omega]
    · simp [below]

/-! ### Maps with keys below sixteen -/

theorem SmallMap.map_snd_iter {V : Type} (m : SmallMap V) : m.iter.map Prod.snd = m.values := by
  have lengths : m.values.length ≤ (SmallMap.indices m.bitmap).length := by
    rw [SmallMap.indices_eq, SmallMap.length_presentBelow _ (Nat.le_refl 16), m.values_length,
      SmallMap.countOnes_eq_rank]
  exact List.map_snd_zip lengths

/-- A map is determined by what it holds at the keys below sixteen. -/
theorem SmallMap.ext_get {V : Type} {m m' : SmallMap V}
    (same : ∀ k < 16, m.get k.toUInt8 = m'.get k.toUInt8) : m = m' := by
  have iters : m.iter = m'.iter := by
    rw [SmallMap.iter_eq, SmallMap.iter_eq]
    exact List.filterMap_congr fun k member => by rw [same k (List.mem_range.mp member)]
  have bits : ∀ i, m.bitmap.toNat.testBit i = m'.bitmap.toNat.testBit i := by
    intro i
    by_cases small : i < 16
    · -- a key's bit is whether the map holds it
      have present := congrArg Option.isSome (same i small)
      rw [Bool.eq_iff_iff, ← SmallMap.toUInt8_toNat_mod small, ← SmallMap.get_isSome_iff,
        ← SmallMap.get_isSome_iff, present]
    · -- above the sixteen bits of a `u16`
      have wide : 2 ^ 16 ≤ 2 ^ i := Nat.pow_le_pow_right (n := 2) (by decide) (by omega)
      rw [Nat.testBit_eq_false_of_lt (Nat.lt_of_lt_of_le m.bitmap.toNat_lt wide),
        Nat.testBit_eq_false_of_lt (Nat.lt_of_lt_of_le m'.bitmap.toNat_lt wide)]
  apply SmallMap.ext
  · exact UInt16.toNat_inj.mp (Nat.eq_of_testBit_eq bits)
  · rw [← SmallMap.map_snd_iter, iters, SmallMap.map_snd_iter]

theorem InternalNode.children'_eq (node : InternalNode) :
    node.children' = (List.range 16).filterMap fun k => (node.childRef k.toUInt8).map (k.toUInt8, ·) :=
  SmallMap.iter_eq node.children

/-- The references of a node, in the order of their nibbles. -/
theorem InternalNode.childRefs_eq (node : InternalNode) :
    node.childRefs = (List.range 16).filterMap fun k => node.childRef k.toUInt8 := by
  rw [childRefs, ← SmallMap.map_snd_iter, SmallMap.iter_eq, List.map_filterMap]
  simp [Option.map_map, Function.comp_def, childRef]

/-- Bit `t` of the bitmap is bit `t % 2` of the kind code of the child at nibble `t / 2`. -/
theorem InternalNode.testBit_bitmap (node : InternalNode) (t : Nat) :
    node.bitmap.testBit t =
      (decide (t < 32) && (kindCode (node.childRef (t / 2).toUInt8)).testBit (t % 2)) := by
  have folded := testBit_foldl_or (fun entry : UInt8 × ChildRef =>
    entry.2.kind.toNat <<< (2 * entry.1.toNat)) node.children' 0 t
  rw [InternalNode.bitmap, folded, Nat.zero_testBit, Bool.false_or, children'_eq]
  apply Bool.eq_iff_iff.mpr
  simp only [List.any_eq_true, List.mem_filterMap, List.mem_range, Option.map_eq_some_iff,
    Bool.and_eq_true, decide_eq_true_eq]
  constructor
  · rintro ⟨entry, ⟨k, small, childRef, found, rfl⟩, set⟩
    have code : childRef.kind.toNat < 4 := kindCode_lt (some childRef)
    dsimp only at set
    rw [Leb128.toNat_toUInt8_of_lt (by omega), testBit_kind_shiftLeft _ _ _ code] at set
    simp only [Bool.and_eq_true, decide_eq_true_eq] at set
    obtain ⟨⟨low, high⟩, bit⟩ := set
    have half : t / 2 = k := by omega
    refine ⟨by omega, ?_⟩
    rw [half, found, show t % 2 = t - 2 * k by omega]
    exact bit
  · rintro ⟨below, bit⟩
    cases found : node.childRef (t / 2).toUInt8 with
    | none => simp [found, kindCode] at bit
    | some childRef =>
      rw [found] at bit
      have code : childRef.kind.toNat < 4 := kindCode_lt (some childRef)
      refine ⟨((t / 2).toUInt8, childRef), ⟨t / 2, by omega, childRef, found, rfl⟩, ?_⟩
      dsimp only
      rw [Leb128.toNat_toUInt8_of_lt (by omega), testBit_kind_shiftLeft _ _ _ code]
      simp only [Bool.and_eq_true, decide_eq_true_eq]
      exact ⟨by omega, by rw [show t - 2 * (t / 2) = t % 2 by omega]; exact bit⟩

theorem kindCode_some_pos (childRef : ChildRef) : 0 < kindCode (some childRef) := by
  cases leaf : childRef.isLeaf <;> simp [kindCode, ChildRef.kind, leaf, ChildKind.toNat]

/-- The two bits at nibble `j` of the bitmap are the kind code of the child there. -/
theorem InternalNode.bitmap_chunk (node : InternalNode) {j : Nat} (small : j < 16) :
    (node.bitmap >>> (2 * j)) &&& ChildKind.MASK = kindCode (node.childRef j.toUInt8) := by
  apply Nat.eq_of_testBit_eq
  intro r
  rw [Nat.testBit_and, Nat.testBit_shiftRight, testBit_bitmap,
    show ChildKind.MASK = 2 ^ 2 - 1 from rfl, Nat.testBit_two_pow_sub_one]
  by_cases low : r < 2
  · -- inside the chunk: bit `r` of the code at nibble `j`
    have half : (2 * j + r) / 2 = j := by omega
    have odd : (2 * j + r) % 2 = r := by omega
    simp [low, half, odd, show 2 * j + r < 32 by omega]
  · -- above the chunk: a code has two bits
    have wide : 4 ≤ 2 ^ r := Nat.pow_le_pow_right (n := 2) (by decide) (show 2 ≤ r by omega)
    simp [low, Nat.testBit_eq_false_of_lt (Nat.lt_of_lt_of_le (kindCode_lt _) wide)]

/-- The bitmap fits the `u32` that `serialize` writes. -/
theorem InternalNode.bitmap_lt (node : InternalNode) : node.bitmap < 2 ^ 32 := by
  apply Nat.lt_pow_two_of_testBit
  intro t above
  rw [testBit_bitmap]
  simp [show ¬t < 32 by omega]

theorem InternalNode.bitmap_ne_zero (node : InternalNode) (nonempty : 0 < node.childCount) :
    node.bitmap ≠ 0 := by
  obtain ⟨k, small, set⟩ : ∃ k < 16, node.children.bitmap.toNat.testBit k = true := by
    have ones : 0 < SmallMap.rank node.children.bitmap.toNat 16 := nonempty
    simpa [SmallMap.rank, List.countP_pos_iff] using ones
  have present : (node.childRef k.toUInt8).isSome := by
    rw [childRef, SmallMap.get_isSome_iff, SmallMap.toUInt8_toNat_mod small]
    exact set
  obtain ⟨childRef, found⟩ := Option.isSome_iff_exists.mp present
  intro zero
  have chunk := node.bitmap_chunk small
  rw [zero, Nat.zero_shiftRight, Nat.zero_and, found] at chunk
  exact Nat.ne_of_lt (kindCode_some_pos childRef) chunk

theorem ChildRef.deserialize_serialize (lawful : leb128.Lawful) (childRef : ChildRef) (rest : List UInt8) :
    ChildRef.deserialize leb128 (childRef.serialize leb128 ++ rest) childRef.isLeaf = .ok (childRef, rest) := by
  have long : ¬(childRef.serialize leb128 ++ rest).length < HASH_SIZE := by
    simp only [ChildRef.serialize, List.length_append, U256.length_bytes, HASH_SIZE]
    omega
  have hash : (childRef.serialize leb128 ++ rest).take HASH_SIZE = U256.bytes childRef.hash := by
    simp [ChildRef.serialize, HASH_SIZE, List.take_left']
  have version :
      (childRef.serialize leb128 ++ rest).drop HASH_SIZE = leb128.write childRef.version ++ rest := by
    simp [ChildRef.serialize, HASH_SIZE, List.drop_left']
  simp only [ChildRef.deserialize, long, if_false, hash, version, readLeb128_write_append lawful,
    U256.fromBigEndian_bytes]
  rfl

/-- A node read from the bytes of `node` up to nibble `j`: the children of `node` below `j`,
none from `j` on, and no hash cache. -/
def InternalNode.ReadBelow (node : InternalNode) (j : Nat) (this : InternalNode) : Prop :=
  this.cache = none ∧
    ∀ k < 16, this.childRef k.toUInt8 = if k < j then node.childRef k.toUInt8 else none

namespace InternalNode.ReadBelow

variable {node this : InternalNode} {j : Nat}

theorem empty (node : InternalNode) : node.ReadBelow 0 InternalNode.empty :=
  ⟨rfl, fun k _ => by simp [InternalNode.empty, InternalNode.childRef]⟩

theorem skip (read : node.ReadBelow j this) (absent : node.childRef j.toUInt8 = none) :
    node.ReadBelow (j + 1) this := by
  refine ⟨read.1, fun k small => ?_⟩
  rw [read.2 k small]
  by_cases below : k < j
  · simp [below, show k < j + 1 by omega]
  · by_cases same : k = j
    · subst same
      simp [absent]
    · simp [below, show ¬k < j + 1 by omega]

theorem insert (read : node.ReadBelow j this) (small : j < 16) {childRef : ChildRef}
    (found : node.childRef j.toUInt8 = some childRef) :
    node.ReadBelow (j + 1) (this.insertChildRef j.toUInt8 childRef) := by
  refine ⟨read.1, fun k smallK => ?_⟩
  have nibbles : j.toUInt8 = k.toUInt8 ↔ j = k := by
    rw [← UInt8.toNat_inj, Leb128.toNat_toUInt8_of_lt (by omega),
      Leb128.toNat_toUInt8_of_lt (by omega)]
  rw [InternalNode.insertChildRef, InternalNode.childRef,
    SmallMap.get_insert _ (by rw [Leb128.toNat_toUInt8_of_lt (by omega)]; exact small)
      (by rw [Leb128.toNat_toUInt8_of_lt (by omega)]; exact smallK)]
  by_cases same : j = k
  · subst same
    simp [found]
  · have other := read.2 k smallK
    rw [InternalNode.childRef] at other
    rw [if_neg (mt nibbles.mp same), other]
    by_cases below : k < j
    · simp [below, show k < j + 1 by omega]
    · simp [below, show ¬k < j + 1 by omega]

/-- Read to the last nibble, the node is `node` without its cache. -/
theorem eq_clone (read : node.ReadBelow 16 this) : this = node.clone := by
  obtain ⟨children, cache⟩ := this
  obtain ⟨noCache, same⟩ := read
  have children_eq : children = node.children := by
    apply SmallMap.ext_get
    intro k small
    have := same k small
    simpa [small, InternalNode.childRef] using this
  simp only at noCache
  rw [children_eq, noCache]
  rfl

end InternalNode.ReadBelow

/-- The loop of `deserialize` from nibble `j` on, over the bitmap shifted to `j` and the bytes of
the children from `j` on: it reads those children and leaves the bytes after them. -/
theorem InternalNode.deserializeChildren_serialize (lawful : leb128.Lawful) (node : InternalNode)
    {j n : Nat} (fits : j + n ≤ 16) {this : InternalNode} (read : node.ReadBelow j this)
    (rest : List UInt8) :
    ∃ this', node.ReadBelow (j + n) this' ∧
      deserializeChildren leb128 (List.range' j n) (node.bitmap >>> (2 * j))
        (((List.range' j n).filterMap fun k => node.childRef k.toUInt8).flatMap
          (ChildRef.serialize leb128) ++ rest) this = .ok (this', rest) := by
  induction n generalizing j this with
  | zero => exact ⟨this, read, rfl⟩
  | succ n ih =>
    have chunk := node.bitmap_chunk (j := j) (by omega)
    have shifted : node.bitmap >>> (2 * j) >>> 2 = node.bitmap >>> (2 * (j + 1)) := by
      rw [← Nat.shiftRight_add, Nat.mul_succ]
    have count : j + 1 + n = j + (n + 1) := by omega
    rw [List.range'_succ, List.filterMap_cons]
    cases found : node.childRef j.toUInt8 with
    | none =>
      -- no child at `j`: the chunk is zero and no bytes are read
      obtain ⟨this', read', loop⟩ := ih (j := j + 1) (by omega) (read.skip found)
      rw [count] at read'
      refine ⟨this', read', ?_⟩
      have none : ChildKind.deserialize (kindCode none) = .ok .none := rfl
      simp only [deserializeChildren, chunk, found, none, bind, Except.bind, pure, Except.pure,
        shifted]
      exact loop
    | some childRef =>
      -- a child at `j`: its kind says how to read the reference, which reads back
      obtain ⟨this', read', loop⟩ := ih (j := j + 1) (by omega) (read.insert (by omega) found)
      rw [count] at read'
      refine ⟨this', read', ?_⟩
      have kind : ChildKind.deserialize (kindCode (some childRef)) = .ok childRef.kind :=
        ChildKind.deserialize_kind childRef
      have reference := ChildRef.deserialize_serialize lawful childRef
        ((((List.range' (j + 1) n).filterMap fun k => node.childRef k.toUInt8).flatMap
          (ChildRef.serialize leb128)) ++ rest)
      simp only [deserializeChildren, chunk, found, kind, List.flatMap_cons, List.append_assoc,
        bind, Except.bind, pure, Except.pure, shifted]
      cases leaf : childRef.isLeaf
      all_goals
        rw [leaf] at reference
        simp only [ChildRef.kind, leaf, reference]
        exact loop

/-- A node with a child reads back as itself without its hash cache. -/
theorem InternalNode.deserialize_serialize (lawful : leb128.Lawful) (node : InternalNode)
    (nonempty : 0 < node.childCount) (strict : Bool) :
    InternalNode.deserialize leb128 (node.serialize leb128) strict = .ok node.clone := by
  have header : (encode 4 node.bitmap).reverse.length = 4 := by simp
  have long : ¬(node.serialize leb128).length < 4 := by
    simp only [serialize, List.length_append, header]
    omega
  have fits : node.bitmap < 256 ^ 4 := Nat.lt_of_lt_of_eq node.bitmap_lt (by norm_num)
  have bitmap : decode ((node.serialize leb128).take 4).reverse = node.bitmap := by
    rw [serialize, List.take_left' header, List.reverse_reverse, decode_encode_of_lt fits]
  have children : (node.serialize leb128).drop 4 =
      ((List.range' 0 16).filterMap fun k => node.childRef k.toUInt8).flatMap
        (ChildRef.serialize leb128) ++ [] := by
    rw [serialize, List.drop_left' header, List.append_nil, childRefs_eq, List.range_eq_range']
  obtain ⟨this, read, loop⟩ :=
    node.deserializeChildren_serialize lawful (j := 0) (n := 16) (by decide) (ReadBelow.empty node) []
  rw [Nat.mul_zero, Nat.shiftRight_zero] at loop
  have count : CHILD_COUNT.toNat = 16 := rfl
  simp only [deserialize, long, if_false, bitmap, node.bitmap_ne_zero nonempty, children, count,
    List.range_eq_range', loop, bind, Except.bind, pure, Except.pure, read.eq_clone]
  cases strict <;> rfl

/-! ### Roots -/

theorem LeafNode.deserialize_of_length_lt {bytes : List UInt8} (short : bytes.length < KEY_SIZE + HASH_SIZE)
    (strict : Bool) :
    LeafNode.deserialize leb128 bytes strict = .error DeserializeErrorKind.unexpectedEof.into := by
  simp only [LeafNode.deserialize, short, if_true]
  rfl

theorem InternalNode.length_childRefs (node : InternalNode) : node.childRefs.length = node.childCount :=
  node.children.values_length

/-- One child with a `u64` version: too short for a leaf. -/
theorem InternalNode.length_serialize_lt (lawful : leb128.Lawful) (node : InternalNode)
    (single : node.childCount = 1) (versions : ∀ childRef ∈ node.childRefs, childRef.version < 2 ^ 64) :
    (node.serialize leb128).length < KEY_SIZE + HASH_SIZE := by
  obtain ⟨childRef, only⟩ : ∃ childRef, node.childRefs = [childRef] :=
    List.length_eq_one_iff.mp (node.length_childRefs.trans single)
  have version := lawful.length_write_le childRef.version (versions childRef (by simp [only]))
  simp only [serialize, only, List.flatMap_cons, List.flatMap_nil, List.append_nil, ChildRef.serialize,
    List.length_append, List.length_reverse, length_encode, U256.length_bytes, KEY_SIZE, HASH_SIZE]
  omega

/-- The roots whose bytes read back: an internal node has a child, a leaf stands under one leaf
only, and under one leaf an internal node has a single child with a `u64` version, which keeps it
too short to read as a leaf. -/
def Root.ReadsBack : Root → Prop
  | .empty => True
  | .filled leafCount _ (.leaf _) => leafCount = 1
  | .filled leafCount _ (.internal node) =>
    0 < node.childCount ∧
      (leafCount = 1 → node.childCount = 1 ∧ ∀ childRef ∈ node.childRefs, childRef.version < 2 ^ 64)

instance : DecidablePred Root.ReadsBack
  | .empty => inferInstanceAs (Decidable True)
  | .filled leafCount _ (.leaf _) => inferInstanceAs (Decidable (leafCount = 1))
  | .filled leafCount _ (.internal node) =>
    inferInstanceAs (Decidable (0 < node.childCount ∧
      (leafCount = 1 → node.childCount = 1 ∧ ∀ childRef ∈ node.childRefs, childRef.version < 2 ^ 64)))

theorem Root.deserialize_serialize (lawful : leb128.Lawful) (root : Root) (readsBack : root.ReadsBack)
    (strict : Bool) : Root.deserialize leb128 (root.serialize leb128) strict = .ok root.clone := by
  match root, readsBack with
  | .empty, _ =>
    simp only [Root.serialize, Root.deserialize, readLeb128_write lawful]
    rfl
  | .filled 1 _ (.leaf leaf), _ =>
    simp only [Root.serialize, Node.serialize, Root.deserialize, readLeb128_write_append lawful, bind,
      Except.bind, leaf.deserialize_serialize lawful]
    rfl
  | .filled 1 _ (.internal node), ⟨nonempty, single⟩ =>
    obtain ⟨one, versions⟩ := single rfl
    have short := node.length_serialize_lt lawful one versions
    simp only [Root.serialize, Node.serialize, Root.deserialize, readLeb128_write_append lawful, bind,
      Except.bind, LeafNode.deserialize_of_length_lt short, node.deserialize_serialize lawful nonempty]
    rfl
  | .filled (leafCount + 2) _ (.internal node), ⟨nonempty, _⟩ =>
    simp only [Root.serialize, Node.serialize, Root.deserialize, readLeb128_write_append lawful, bind,
      Except.bind, node.deserialize_serialize lawful nonempty]
    rfl

/-! ### The manifest -/

theorem fromUTF8?_toUTF8 (s : String) : String.fromUTF8? s.toUTF8 = some s := by
  rw [String.fromUTF8?, String.toUTF8_eq_toByteArray, dif_pos s.isValidUTF8]
  rfl

theorem toByteArray_data_toList (bytes : ByteArray) : bytes.data.toList.toByteArray = bytes := by
  apply ByteArray.ext
  rw [List.data_toByteArray, Array.toArray_toList]

theorem TreeTags.deserializeStr_serializeStr (lawful : leb128.Lawful) (s : String) (rest : List UInt8) :
    deserializeStr leb128 (serializeStr leb128 s ++ rest) = .ok (s, rest) := by
  have size : s.toUTF8.data.toList.length = s.utf8ByteSize := by simp
  have long : ¬(s.toUTF8.data.toList ++ rest).length < s.utf8ByteSize := by
    rw [List.length_append, size]
    omega
  simp only [deserializeStr, serializeStr, List.append_assoc, readLeb128_write_append lawful, bind,
    Except.bind, long, if_false, List.take_left' size, List.drop_left' size,
    toByteArray_data_toList, fromUTF8?_toUTF8]
  rfl

theorem parseUsize_toString (n : Nat) : parseUsize (toString n) = some n := by
  have isDigit : ∀ c ∈ Nat.toDigits 10 n, c.isDigit = true := fun c member =>
    Nat.isDigit_of_mem_toDigits (by decide) (by decide) member
  have value : Nat.ofDigitChars 10 (Nat.toDigits 10 n) 0 = n := Nat.ofDigitChars_ten_toDigits
  obtain ⟨c, cs, first⟩ := List.exists_cons_of_ne_nil (Nat.toDigits_ne_nil (n := n) (b := 10))
  rw [first] at isDigit value
  -- the first digit is not a sign
  have unsigned : c ≠ '+' := by
    rintro rfl
    exact absurd (isDigit '+' List.mem_cons_self) (by decide)
  have digits : (toString n).toList = c :: cs := by
    rw [← first]
    exact Nat.toList_repr
  unfold parseUsize
  rw [digits]
  dsimp only
  split
  · next rest plus => exact absurd (List.cons.inj plus).1 unsigned
  · rw [if_pos ⟨List.cons_ne_nil _ _, List.all_eq_true.mpr isDigit⟩, value]

theorem stripPrefix_custom (key : String) : stripPrefix ("custom." ++ key) "custom." = some key := by
  have chars : ("custom." ++ key).toList = "custom.".toList ++ key.toList := String.toList_append
  have size : "custom.".length = "custom.".toList.length := String.length_toList.symm
  rw [stripPrefix, chars, if_pos (List.isPrefixOf_iff_prefix.mpr (List.prefix_append _ _)), size,
    List.drop_left, String.ofList_toList]

/-- A custom key is none of the fixed tags: those do not start with `c`. -/
theorem custom_ne {key name : String} (other : name.toList.head? ≠ some 'c') :
    "custom." ++ key ≠ name := by
  rintro rfl
  apply other
  rw [String.toList_append]
  rfl

namespace TreeTags.Parsed

variable (parsed : Parsed)

/-- Recording a key and its value. -/
def recordPair (parsed : Parsed) (pair : String × String) : Except DeserializeError Parsed :=
  parsed.record pair.1 pair.2

theorem record_architecture (value : String) :
    parsed.record "architecture" value = .ok { parsed with architecture := some value } := by
  rw [record, if_pos rfl]

theorem record_depth (depth : Nat) :
    parsed.record "depth" (toString depth) = .ok { parsed with depth := some depth } := by
  rw [record, if_neg (by decide), if_neg (by decide), if_pos rfl, parseUsize_toString]

theorem record_hasher (value : String) :
    parsed.record "hasher" value = .ok { parsed with hasher := some value } := by
  rw [record, if_neg (by decide), if_pos rfl]

theorem record_isRecovering :
    parsed.record "is_recovering" "true" = .ok { parsed with isRecovering := true } := by
  rw [record, if_neg (by decide), if_neg (by decide), if_neg (by decide), if_pos rfl]
  rfl

theorem record_custom (key value : String) :
    parsed.record ("custom." ++ key) value = .ok { parsed with custom := parsed.custom.insert key value } := by
  rw [record, if_neg (custom_ne (by decide)), if_neg (custom_ne (by decide)),
    if_neg (custom_ne (by decide)), if_neg (custom_ne (by decide)), stripPrefix_custom]

/-- Recording the custom entries inserts them into the custom map one after another. -/
theorem foldlM_record_custom (entries : List (Sigma fun _ : String => String)) :
    (entries.map fun entry => ("custom." ++ entry.1, entry.2)).foldlM recordPair parsed =
      .ok { parsed with
        custom := entries.foldl (fun custom entry => custom.insert entry.1 entry.2) parsed.custom } := by
  induction entries generalizing parsed with
  | nil => rfl
  | cons entry entries ih =>
    rw [List.map_cons, List.foldlM_cons, recordPair, record_custom]
    exact ih _

end TreeTags.Parsed

/-- The lookups of a fold of inserts: the folded entry with the key, or else the start map's. -/
theorem lookup_foldl_insert {α : Type} [DecidableEq α] {β : Type}
    (entries : List (Sigma fun _ : α => β)) (distinct : entries.NodupKeys) (start : AList fun _ : α => β)
    (key : α) :
    (entries.foldl (fun custom entry => custom.insert entry.1 entry.2) start).lookup key =
      (entries.dlookup key).or (start.lookup key) := by
  induction entries generalizing start with
  | nil => rfl
  | cons entry entries ih =>
    obtain ⟨fresh, distinct⟩ := List.nodupKeys_cons.mp distinct
    rw [List.foldl_cons, ih distinct]
    by_cases same : key = entry.1
    · -- the entry's key: no later entry has it, so its value is the one inserted
      subst same
      rw [List.dlookup_eq_none.mpr fresh, AList.lookup_insert, List.dlookup_cons_eq]
      rfl
    · rw [AList.lookup_insert_ne same, List.dlookup_cons_ne _ _ same]

/-- The key-value pairs that `TreeTags::serialize` writes, in its order. -/
def TreeTags.tagPairs (self : TreeTags) : List (String × String) :=
  [("architecture", self.architecture), ("depth", toString self.depth), ("hasher", self.hasher)] ++
    (if self.isRecovering then [("is_recovering", "true")] else []) ++
    self.custom.entries.map fun entry => ("custom." ++ entry.1, entry.2)

/-- The bytes of a pair of strings. -/
def TreeTags.serializePair (leb128 : Leb128.Codec) (pair : String × String) : List UInt8 :=
  serializeStr leb128 pair.1 ++ serializeStr leb128 pair.2

theorem TreeTags.serialize_eq (self : TreeTags) :
    self.serialize leb128 =
      leb128.write self.tagPairs.length ++ self.tagPairs.flatMap (serializePair leb128) := by
  have count : self.tagPairs.length =
      3 + (if self.isRecovering then 1 else 0) + self.custom.entries.length := by
    cases recovering : self.isRecovering <;> simp [tagPairs, recovering] <;> omega
  rw [count, serialize]
  cases recovering : self.isRecovering <;>
    simp [tagPairs, serializePair, recovering, List.flatMap_map, List.append_assoc]

/-- The loop reads the pairs written one after another, recording each. -/
theorem TreeTags.readTags_serialize (lawful : leb128.Lawful) (pairs : List (String × String))
    (parsed : Parsed) (rest : List UInt8) :
    readTags leb128 pairs.length parsed (pairs.flatMap (serializePair leb128) ++ rest) =
      (pairs.foldlM Parsed.recordPair parsed).map (·, rest) := by
  induction pairs generalizing parsed with
  | nil => rfl
  | cons pair pairs ih =>
    simp only [List.length_cons, List.flatMap_cons, serializePair, List.append_assoc, readTags,
      deserializeStr_serializeStr lawful, Except.mapError, bind, Except.bind, List.foldlM_cons,
      Parsed.recordPair]
    cases parsed.record pair.1 pair.2 with
    | error e => rfl
    | ok recorded => exact ih recorded

theorem TreeTags.foldlM_record_tagPairs (self : TreeTags) :
    self.tagPairs.foldlM Parsed.recordPair ⟨none, none, none, false, ∅⟩ =
      .ok ⟨some self.architecture, some self.hasher, some self.depth, self.isRecovering,
        self.custom.entries.foldl (fun custom entry => custom.insert entry.1 entry.2) ∅⟩ := by
  have fixed : [("architecture", self.architecture), ("depth", toString self.depth),
      ("hasher", self.hasher)].foldlM Parsed.recordPair ⟨none, none, none, false, ∅⟩ =
      .ok ⟨some self.architecture, some self.hasher, some self.depth, false, ∅⟩ := by
    simp only [List.foldlM_cons, List.foldlM_nil, Parsed.recordPair, Parsed.record_architecture,
      Parsed.record_depth, Parsed.record_hasher, bind, Except.bind, pure, Except.pure]
  rw [tagPairs, List.foldlM_append, List.foldlM_append, fixed]
  cases recovering : self.isRecovering <;>
    simp only [bind, Except.bind, List.foldlM_cons, List.foldlM_nil, Parsed.recordPair,
      Parsed.record_isRecovering,
      Parsed.foldlM_record_custom, pure, Except.pure, if_true, Bool.false_eq_true, if_false]

/-- Tags as their derived `PartialEq` compares them: the custom tags as maps. -/
def TreeTags.Same (tags tags' : TreeTags) : Prop :=
  tags.architecture = tags'.architecture ∧ tags.depth = tags'.depth ∧ tags.hasher = tags'.hasher ∧
    tags.isRecovering = tags'.isRecovering ∧ ∀ key, tags.custom.lookup key = tags'.custom.lookup key

/-- Manifests as their derived `PartialEq` compares them. -/
def Manifest.Same (manifest manifest' : Manifest) : Prop :=
  manifest.versionCount = manifest'.versionCount ∧
    Option.Rel TreeTags.Same manifest.tags manifest'.tags

theorem TreeTags.deserialize_serialize (lawful : leb128.Lawful) (tags : TreeTags) (rest : List UInt8) :
    ∃ read, TreeTags.deserialize leb128 (tags.serialize leb128 ++ rest) = .ok (read, rest) ∧
      read.Same tags := by
  have custom : ∀ key, (tags.custom.entries.foldl
      (fun (custom : HashMap String String) entry => custom.insert entry.1 entry.2) ∅).lookup key =
        tags.custom.lookup key := by
    intro key
    rw [lookup_foldl_insert _ tags.custom.nodupKeys, AList.lookup_empty, Option.or_none]
    rfl
  refine ⟨⟨tags.architecture, tags.depth, tags.hasher, tags.isRecovering,
    tags.custom.entries.foldl (fun custom entry => custom.insert entry.1 entry.2) ∅⟩, ?_,
    rfl, rfl, rfl, rfl, custom⟩
  simp only [deserialize, serialize_eq, List.append_assoc, readLeb128_write_append lawful, bind,
    Except.bind, readTags_serialize lawful, foldlM_record_tagPairs, Except.map, required, pure,
    Except.pure]

/-- The tags take bytes after their count: the key of the first one, `architecture`. -/
theorem TreeTags.serialize_isEmpty (tags : TreeTags) : (tags.serialize leb128).isEmpty = false := by
  have key : "architecture".toUTF8.data.toList.length = 12 := by
    have size : "architecture".toUTF8.data.toList.length = "architecture".utf8ByteSize := by simp
    rw [size]
    decide
  rw [List.isEmpty_eq_false_iff, ← List.length_pos_iff, serialize_eq]
  simp only [tagPairs, List.cons_append, List.flatMap_cons, serializePair, serializeStr,
    List.length_append, key]
  omega

theorem Manifest.deserialize_serialize (lawful : leb128.Lawful) (manifest : Manifest) :
    ∃ read, Manifest.deserialize leb128 (manifest.serialize leb128) = .ok read ∧
      read.Same manifest := by
  obtain ⟨versionCount, tags⟩ := manifest
  cases tags with
  | none =>
    refine ⟨⟨versionCount, none⟩, ?_, rfl, Option.Rel.none⟩
    simp only [Manifest.deserialize, Manifest.serialize, Option.map_none, Option.getD_none,
      List.append_nil, readLeb128_write lawful, bind, Except.bind, List.isEmpty_nil, if_true, pure,
      Except.pure]
  | some tags =>
    obtain ⟨read, bytes, same⟩ := tags.deserialize_serialize lawful []
    rw [List.append_nil] at bytes
    refine ⟨⟨versionCount, some read⟩, ?_, rfl, Option.Rel.some same⟩
    simp only [Manifest.deserialize, Manifest.serialize, Option.map_some, Option.getD_some,
      readLeb128_write_append lawful, bind, Except.bind, tags.serialize_isEmpty, Bool.false_eq_true,
      if_false, bytes, Functor.map, Except.map, pure, Except.pure]

/-! ### What reads back -/

end ZksyncEra.MerkleTree
