import ZksyncEra.MerkleTree.Getters

/-!
Range digests (`TreeRangeDigest` in `hasher/proofs.rs`): the root hash of the tree recomputed
from the entries of a key range, the first and the last with a Merkle proof.

The digest keeps the last leaf processed and a *left contour*, a hash for each depth. `new` takes
the left hashes of the start proof; `update` collapses the current leaf up to the level where its
key and the next one diverge, with the contour on its left and empty subtrees on its right;
`finalize` collapses the final entry to the root, with the contour on its left and its proof on
its right. The asserts and the `unwrap` of the contour's length are panics, here `none`.
-/

namespace ZksyncEra.MerkleTree

/-- `TreeRangeDigest`. -/
structure TreeRangeDigest where
  currentLeaf : LeafNode
  leftContour : Vector ValueHash TREE_DEPTH

namespace TreeRangeDigest

/-- `TreeRangeDigest::new`. The contour has `TREE_DEPTH` hashes unless the proof is longer. -/
def new (H : HashTree) (startKey : Key) (startEntry : TreeEntryWithProof) : Option TreeRangeDigest :=
  let fullPath := H.extendMerklePath startEntry.merklePath
  let leftContour := fullPath.zipIdx.map fun (adjacentHash, depth) =>
    -- `adjacent_hash` is to the left of the `start_key`; take it
    if startKey.bit depth then adjacentHash else H.emptySubtreeHash depth
  if fits : leftContour.length = TREE_DEPTH then
    some ⟨LeafNode.new startEntry.base, ⟨leftContour.toArray, by simpa using fits⟩⟩
  else none

/-- One iteration of the loop of `update` at `depth`: the hash of the current leaf one level up,
with the left contour's hash there reset to the empty subtree. -/
def collapseStep (H : HashTree) (key : Key) (state : ValueHash × Vector ValueHash TREE_DEPTH)
    (depth : Fin TREE_DEPTH) : ValueHash × Vector ValueHash TREE_DEPTH :=
  let (hash, leftContour) := state
  let emptySubtreeHash := H.emptySubtreeHash depth
  let leftHash := leftContour[depth]
  let leftContour := leftContour.set depth emptySubtreeHash
  -- The right contour is empty by construction: keys come in ascending order.
  let hash := if key.bit depth then H.hashBranch leftHash hash else H.hashBranch hash emptySubtreeHash
  (hash, leftContour)

theorem divergingLevel_lt (lhs rhs : Key) :
    TREE_DEPTH - (findDivergingBit lhs rhs + 1) < TREE_DEPTH :=
  Nat.sub_lt (by decide) (Nat.succ_pos _)

/-- `TreeRangeDigest::update`. -/
def update (H : HashTree) (self : TreeRangeDigest) (entry : TreeEntry) : Option TreeRangeDigest :=
  if self.currentLeaf.fullKey < entry.key then
    let divergingLevel := findDivergingBit self.currentLeaf.fullKey entry.key + 1
    let hash := H.hashLeaf self.currentLeaf.valueHash self.currentLeaf.leafIndex
    let (hash, leftContour) := ((List.finRange TREE_DEPTH).take (TREE_DEPTH - divergingLevel)).foldl
      (collapseStep H self.currentLeaf.fullKey) (hash, self.leftContour)
    some ⟨LeafNode.new entry,
      leftContour.set (TREE_DEPTH - divergingLevel) hash (divergingLevel_lt _ _)⟩
  else none

/-- `TreeRangeDigest::finalize`. -/
def finalize (H : HashTree) (self : TreeRangeDigest) (finalEntry : TreeEntryWithProof) :
    Option ValueHash := do
  let self ← self.update H finalEntry.base
  let fullPath := H.extendMerklePath finalEntry.merklePath
  let zippedPaths := self.leftContour.toList.zip fullPath
  pure (zippedPaths.zipIdx.foldl (fun hash ((left, right), depth) =>
      if finalEntry.base.key.bit depth then H.hashBranch left hash else H.hashBranch hash right)
    (H.hashLeaf finalEntry.base.value finalEntry.base.leafIndex))

end TreeRangeDigest

end ZksyncEra.MerkleTree
