import ZksyncEra.MerkleTree.Spec.Getters
import ZksyncEra.MerkleTree.Spec.Utils

/-!
The hash cache of an internal node stays the one that hashing the child slots from scratch fills
(`hasher/nodes.rs`).

`subtreeHash` is plain hashing of the 4-level binary subtree over the 16 child slots, with
`None` for a subtree without children, and `cacheOf` the three inner levels of it. A node is
`CacheCoherent` when its cache, if any, is `cacheOf` its child hashes. `ensure_child_ref` changes
one child slot and leaves the cache as it was; `update_child_hash` then recomputes the four hashes
on that slot's way up (`update_nibble`), which gives `cacheOf` the new slots again, since every
other hash of the cache is over slots that did not change. `extend_merkle_path` reads from a
coherent cache the sibling hashes of that way up.
-/

namespace ZksyncEra.MerkleTree

variable (H : HashTree) (level : Nat)

/-- The optional hash of the subtree of height `k` at index `i` in the binary subtree over the
child slots of a node at `level`; `None` stands for a subtree without children. -/
def subtreeHash (hashes : Vector (Option ValueHash) 16) : Nat → Nat → Option ValueHash
  | 0, i => slot hashes i
  | k + 1, i => H.hashOptionalBranch (TREE_DEPTH - (level + (4 - k)))
      (subtreeHash hashes k (2 * i)) (subtreeHash hashes k (2 * i + 1))

/-- The inner levels of the subtree, as hashing the child slots from scratch fills the cache. -/
def cacheOf (hashes : Vector (Option ValueHash) 16) : InternalNodeCache :=
  ⟨Vector.ofFn fun i => subtreeHash H level hashes 3 i.val,
    Vector.ofFn fun i => subtreeHash H level hashes 2 i.val,
    Vector.ofFn fun i => subtreeHash H level hashes 1 i.val⟩

/-- The cache of a node is the one its child hashes give, if it has one. -/
def InternalNode.CacheCoherent (node : InternalNode) : Prop :=
  ∀ cache, node.cache = some cache → cache = cacheOf H level node.childHashes

/-- The cache is the one of child hashes that may differ from the node's at slot `n` only. -/
def InternalNode.CacheCoherentOff (n : Nat) (node : InternalNode) : Prop :=
  ∀ cache, node.cache = some cache → ∃ hashes : Vector (Option ValueHash) 16,
    (∀ j, j ≠ n → slot hashes j = slot node.childHashes j) ∧ cache = cacheOf H level hashes

/-- `ensure_child_ref` then `update_child_hash` of an updater at `nibble`. -/
structure ChildUpdate where
  nibble : UInt8
  version : Nat
  isLeaf : Bool
  childHash : ValueHash

/-- The child reference an update leaves at its nibble: the new hash, with the version and the leaf
flag that `ensure_child_ref` sets. -/
def ChildUpdate.childRef (op : ChildUpdate) : ChildRef := ⟨op.childHash, op.version, op.isLeaf⟩

variable {H level}

/-- A node whose child references agree with another's off slot `n` has the same hash slots there. -/
theorem slot_childHashes_congr {node node' : InternalNode} {n : Nat}
    (same : ∀ j < 16, j ≠ n → node'.childRef j.toUInt8 = node.childRef j.toUInt8) :
    ∀ j, j ≠ n → slot node.childHashes j = slot node'.childHashes j := by
  intro j other
  by_cases inside : j < 16
  · rw [InternalNode.slot_childHashes _ inside, InternalNode.slot_childHashes _ inside, same j inside other]
  · simp [slot, Vector.getElem?_eq_none (Nat.le_of_not_lt inside)]

theorem childRef_insertChildRef (node : InternalNode) {n j : UInt8} (hn : n.toNat < 16) (hj : j.toNat < 16)
    (childRef : ChildRef) :
    (node.insertChildRef n childRef).childRef j = if n = j then some childRef else node.childRef j :=
  node.children.get_insert hn hj childRef

/-- The references at the other slots, addressed by position, stay as they were. -/
theorem childRef_insertChildRef_of_ne (node : InternalNode) {n : UInt8} (hn : n.toNat < 16)
    {j : Nat} (hj : j < 16) (ne : j ≠ n.toNat) (childRef : ChildRef) :
    (node.insertChildRef n childRef).childRef j.toUInt8 = node.childRef j.toUInt8 := by
  have exact : j.toUInt8.toNat = j := SmallMap.toNat_toUInt8_of_lt hj
  rw [childRef_insertChildRef node hn (by rw [exact]; exact hj),
    if_neg fun same => ne (by rw [same, exact])]

/-- `ensure_child_ref` leaves a reference at its nibble and the other ones as they were. -/
theorem ensureChildRef_spec (node : InternalNode) {n : UInt8} (small : n.toNat < 16) (version : Nat)
    (isLeaf : Bool) :
    ((node.ensureChildRef n version isLeaf).childRef n).isSome ∧
      (∀ j < 16, j ≠ n.toNat → (node.ensureChildRef n version isLeaf).childRef j.toUInt8 =
        node.childRef j.toUInt8) ∧
      (node.ensureChildRef n version isLeaf).cache = node.cache := by
  unfold InternalNode.ensureChildRef
  split
  · exact ⟨by simp [childRef_insertChildRef node small small],
      fun j hj ne => childRef_insertChildRef_of_ne node small hj ne _, rfl⟩
  · exact ⟨by simp [childRef_insertChildRef node small small],
      fun j hj ne => childRef_insertChildRef_of_ne node small hj ne _, rfl⟩

theorem InternalNode.CacheCoherentOff.ensureChildRef {node : InternalNode} {n : UInt8}
    (small : n.toNat < 16) (coherent : node.CacheCoherentOff H level n.toNat) (version : Nat) (isLeaf : Bool) :
    (node.ensureChildRef n version isLeaf).CacheCoherentOff H level n.toNat := by
  obtain ⟨_, others, cached⟩ := ensureChildRef_spec node small version isLeaf
  intro cache stored
  obtain ⟨hashes, agree, rfl⟩ := coherent cache (cached ▸ stored)
  exact ⟨hashes, fun j ne => (agree j ne).trans (slot_childHashes_congr others j ne), rfl⟩

end ZksyncEra.MerkleTree
