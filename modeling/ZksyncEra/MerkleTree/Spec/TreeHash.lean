import ZksyncEra.MerkleTree.Nibbles
import ZksyncEra.MerkleTree.Hasher

/-!
What an AR16MT stands for: the complete binary tree of depth 256 whose leaf at position `x` is
the key with value `x` (so key bit 255 chooses the top branch). A present key's leaf hashes its
value and leaf index; a vacant leaf hashes to the empty subtree of depth 0.

`prefixHash p n` is the subtree under the `n`-nibble prefix `p`. It splits into the 16 subtrees
one nibble lower, and it is an empty subtree when nothing lies under the prefix, or a single leaf
folded up its path when one key does: these are the three shapes of stored nodes.
-/

namespace ZksyncEra.MerkleTree

/-- Contents of a tree: the value and leaf index of every present key. -/
abbrev Contents := Key → Option (ValueHash × Nat)

variable (H : HashTree) (contents : Contents)

/-- Hash of the leaf at position `x`. -/
def leafHashAt (x : Nat) : ValueHash :=
  match contents (BitVec.ofNat 256 x) with
  | some (value, leafIndex) => H.hashLeaf value leafIndex
  | none => H.emptySubtreeHash 0

/-- Hash of the full binary tree of depth 256 over the contents. -/
def treeHash : ValueHash :=
  Merkle.root H.hashBranch TREE_DEPTH (leafHashAt H contents)

/-- Hash of the subtree under the `n`-nibble prefix with value `p`. -/
def prefixHash (p n : Nat) : ValueHash :=
  Merkle.root H.hashBranch (TREE_DEPTH - 4 * n) fun x =>
    leafHashAt H contents (p * 2 ^ (TREE_DEPTH - 4 * n) + x)

theorem TREE_DEPTH_eq : TREE_DEPTH = 256 := rfl

theorem prefixHash_zero : prefixHash H contents 0 0 = treeHash H contents := by
  simp [prefixHash, treeHash]

/-- A position below the `n`-nibble prefix `p` is a key with that prefix. -/
theorem prefixValue_below {n p x : Nat} (hn : n ≤ 64) (hp : p < 2 ^ (4 * n))
    (hx : x < 2 ^ (TREE_DEPTH - 4 * n)) :
    p * 2 ^ (TREE_DEPTH - 4 * n) + x < 2 ^ 256 ∧
      Nibbles.prefixValue (BitVec.ofNat 256 (p * 2 ^ (TREE_DEPTH - 4 * n) + x)) n = p := by
  have width : TREE_DEPTH - 4 * n = 4 * (64 - n) := by rw [TREE_DEPTH_eq]; omega
  rw [width] at hx ⊢
  have fits : p * 2 ^ (4 * (64 - n)) + x < 2 ^ 256 := by
    have total : 2 ^ 256 = 2 ^ (4 * n) * 2 ^ (4 * (64 - n)) := by
      rw [← Nat.pow_add]; congr 1; omega
    rw [total]
    calc p * 2 ^ (4 * (64 - n)) + x < (p + 1) * 2 ^ (4 * (64 - n)) := by rw [Nat.add_mul]; omega
      _ ≤ 2 ^ (4 * n) * 2 ^ (4 * (64 - n)) := Nat.mul_le_mul_right _ hp
  refine ⟨fits, ?_⟩
  rw [Nibbles.prefixValue_ofNat fits, Nat.mul_comm, Nat.mul_add_div (Nat.two_pow_pos _),
    Nat.div_eq_of_lt hx, Nat.add_zero]

/-- The subtree under a prefix is the tree of height 4 over its 16 child subtrees. -/
theorem prefixHash_eq_root (p : Nat) {n : Nat} (hn : n < 64) :
    prefixHash H contents p n =
      Merkle.root H.hashBranch 4 fun j => prefixHash H contents (16 * p + j) (n + 1) := by
  have width : TREE_DEPTH - 4 * n = (TREE_DEPTH - 4 * (n + 1)) + 4 := by rw [TREE_DEPTH_eq]; omega
  unfold prefixHash
  rw [width, Merkle.root_add]
  apply Merkle.root_congr
  intro j _
  apply Merkle.root_congr
  intro x _
  congr 1
  rw [Nat.pow_add]
  ring

/-- Nothing under the prefix: an empty subtree. -/
theorem prefixHash_of_vacant {p n : Nat} (hn : n ≤ 64) (hp : p < 2 ^ (4 * n))
    (vacant : ∀ key : Key, Nibbles.prefixValue key n = p → contents key = none) :
    prefixHash H contents p n = H.emptySubtreeHash (TREE_DEPTH - 4 * n) := by
  rw [prefixHash, H.emptySubtreeHash_eq_emptyRoot]
  apply Merkle.root_of_vacant
  intro x hx
  rw [leafHashAt, vacant _ (prefixValue_below hn hp hx).2]

/-- A single key under the prefix: its leaf folded up its path with empty siblings. -/
theorem prefixHash_of_single {key : Key} {n : Nat} (hn : n ≤ 64) {value : ValueHash}
    {leafIndex : Nat} (found : contents key = some (value, leafIndex))
    (only : ∀ key' : Key, Nibbles.prefixValue key' n = Nibbles.prefixValue key n →
      (contents key').isSome → key' = key) :
    prefixHash H contents (Nibbles.prefixValue key n) n =
      Merkle.foldPath H.hashBranch H.emptySubtreeHash key.toNat (H.hashLeaf value leafIndex)
        (TREE_DEPTH - 4 * n) := by
  have width : TREE_DEPTH - 4 * n = 4 * (64 - n) := by rw [TREE_DEPTH_eq]; omega
  have hp := Nibbles.prefixValue_lt key hn
  -- the key sits at the offset of its low bits inside the subtree
  have split : Nibbles.prefixValue key n * 2 ^ (TREE_DEPTH - 4 * n) +
      key.toNat % 2 ^ (TREE_DEPTH - 4 * n) = key.toNat := by
    rw [width, Nibbles.prefixValue]; exact Nat.div_add_mod' _ _
  have siblings : H.emptySubtreeHash = Merkle.emptyRoot H.hashBranch (H.emptySubtreeHash 0) :=
    funext H.emptySubtreeHash_eq_emptyRoot
  rw [prefixHash, Merkle.root_of_single H.hashBranch (Nat.mod_lt _ (Nat.two_pow_pos _)), split,
    leafHashAt, BitVec.ofNat_toNat, BitVec.setWidth_eq, found, siblings]
  · exact Merkle.foldPath_congr _ _ _ fun i hi => by
      rw [Nat.testBit_mod_two_pow, decide_eq_true hi, Bool.true_and]
  · intro y hy other
    obtain ⟨fits, prefixEq⟩ := prefixValue_below hn hp hy
    rw [leafHashAt]
    cases present : contents (BitVec.ofNat 256 _) with
    | none => rfl
    | some entry =>
      -- a second key under the prefix would be the same key, at the same offset
      have same := only _ prefixEq (by rw [present]; rfl)
      have offset := congrArg (fun k : Key => k.toNat % 2 ^ (TREE_DEPTH - 4 * n)) same
      simp only [BitVec.toNat_ofNat, Nat.mod_eq_of_lt fits] at offset
      rw [Nat.add_comm, Nat.add_mul_mod_self_right, Nat.mod_eq_of_lt hy] at offset
      exact absurd offset other

end ZksyncEra.MerkleTree
