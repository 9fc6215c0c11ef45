import ZksyncEra.MerkleTree.RangeDigest
import ZksyncEra.MerkleTree.Spec.Getters

/-!
What a range digest computes.

`update` folds the current leaf up to the level where it and the next key diverge, with the left
contour's hashes as the siblings where the leaf is a right child and empty subtrees where it is a
left one; the contour below that level is reset to empty subtrees (`update_eq`). `finalize` folds
the final entry to the root with the contour's hashes on its left and its proof's on its right
(`finalize_eq`). Both are `Merkle.foldPath` of a sibling function.
-/

namespace ZksyncEra.MerkleTree

namespace TreeRangeDigest

/-- The contour's hash at a depth, read as a function of `Nat`. -/
def leftHash (leftContour : Vector ValueHash TREE_DEPTH) (depth : Nat) : ValueHash :=
  (leftContour[depth]?).getD 0

/-- A proof without hashes gives a contour of empty subtrees, whatever the start key. -/
theorem new_nil (H : HashTree) (startKey : Key) (base : TreeEntry) :
    new H startKey ⟨base, []⟩ =
      some ⟨LeafNode.new base, Vector.ofFn fun depth => H.emptySubtreeHash depth⟩ := by
  have length : ((List.range TREE_DEPTH).map H.emptySubtreeHash).length = TREE_DEPTH := by
    rw [List.length_map, List.length_range]
  have vector : (⟨((List.range TREE_DEPTH).map H.emptySubtreeHash).toArray, by simp⟩ :
      Vector ValueHash TREE_DEPTH) = Vector.ofFn fun depth => H.emptySubtreeHash depth := by
    apply Vector.ext
    intro depth below
    simp only [Vector.getElem_mk, List.getElem_toArray, List.getElem_map, List.getElem_range,
      Vector.getElem_ofFn]
  -- without hashes every depth of the contour takes the empty subtree, on either side
  simp only [new, HashTree.extendMerklePath, List.length_nil, Nat.sub_zero, List.append_nil,
    List.zipIdx_map_range, List.map_map, Function.comp_def, ite_self]
  exact (dif_pos length).trans
    (congrArg (fun contour => some (TreeRangeDigest.mk (LeafNode.new base) contour)) vector)

theorem leftHash_eq (leftContour : Vector ValueHash TREE_DEPTH) (depth : Fin TREE_DEPTH) :
    leftHash leftContour depth = GetElem.getElem leftContour depth depth.is_lt := by
  simp [leftHash]

/-- The loop of `update` over the first `n` depths: the leaf folded up `n` levels with the
contour's hashes on its left, and the contour reset to empty subtrees below `n`. -/
theorem foldl_collapseStep (H : HashTree) (key : Key) (hash : ValueHash)
    (leftContour : Vector ValueHash TREE_DEPTH) {n : Nat} (fits : n ≤ TREE_DEPTH) :
    ((List.finRange TREE_DEPTH).take n).foldl (collapseStep H key) (hash, leftContour) =
      (Merkle.foldPath H.hashBranch
          (fun depth => if key.bit depth then leftHash leftContour depth else H.emptySubtreeHash depth)
          key.toNat hash n,
        Vector.ofFn fun depth =>
          if depth.val < n then H.emptySubtreeHash depth else leftContour[depth]) := by
  induction n with
  | zero =>
    have unchanged : (Vector.ofFn fun depth : Fin TREE_DEPTH =>
        if depth.val < 0 then H.emptySubtreeHash depth else leftContour[depth]) = leftContour := by
      apply Vector.ext
      intro depth below
      simp
    rw [unchanged]
    rfl
  | succ n ih =>
    have inside : n < TREE_DEPTH := fits
    have next : (List.finRange TREE_DEPTH)[n]? = some ⟨n, inside⟩ := by
      rw [List.getElem?_eq_getElem (by rw [List.length_finRange]; exact inside), List.getElem_finRange]
      rfl
    rw [List.take_add_one, next, Option.toList_some, List.foldl_append, ih (by omega), List.foldl_cons,
      List.foldl_nil, Merkle.foldPath_succ]
    simp only [collapseStep, U256.bit, leftHash_eq leftContour ⟨n, inside⟩]
    refine Prod.ext ?_ ?_
    · -- the leaf's side at depth `n` picks the contour's hash or an empty subtree
      by_cases right : key.toNat.testBit n <;> simp [right]
    · apply Vector.ext
      intro depth below
      rw [Vector.getElem_set, Vector.getElem_ofFn, Vector.getElem_ofFn]
      by_cases same : n = depth
      · subst same
        simp
      · have : (depth < n + 1) = (depth < n) := propext ⟨fun h => by omega, fun h => by omega⟩
        simp [same, this]

/-- `update` after a smaller key: the current leaf is folded up to the level below the one where
the two keys diverge and recorded there in the contour, which is reset below it. -/
theorem update_eq (H : HashTree) (self : TreeRangeDigest) (entry : TreeEntry)
    (greater : self.currentLeaf.fullKey < entry.key) :
    self.update H entry = some ⟨LeafNode.new entry,
      (Vector.ofFn fun depth : Fin TREE_DEPTH =>
          if depth.val < TREE_DEPTH - (findDivergingBit self.currentLeaf.fullKey entry.key + 1)
          then H.emptySubtreeHash depth else GetElem.getElem self.leftContour depth depth.is_lt).set
        (TREE_DEPTH - (findDivergingBit self.currentLeaf.fullKey entry.key + 1))
        (Merkle.foldPath H.hashBranch
          (fun depth => if self.currentLeaf.fullKey.bit depth then leftHash self.leftContour depth
            else H.emptySubtreeHash depth)
          self.currentLeaf.fullKey.toNat (H.hashLeaf self.currentLeaf.valueHash self.currentLeaf.leafIndex)
          (TREE_DEPTH - (findDivergingBit self.currentLeaf.fullKey entry.key + 1)))
        (divergingLevel_lt _ _)⟩ := by
  simp only [update, if_pos greater,
    foldl_collapseStep H _ _ _ (Nat.le_of_lt (divergingLevel_lt _ _))]

/-- The sibling `finalize` takes at a depth: the left hash where the key has a one, the right
hash where it has a zero. -/
def sideHash (key : Key) (pairs : List (ValueHash × ValueHash)) (depth : Nat) : ValueHash :=
  if key.bit depth then (pairs.getD depth (0, 0)).1 else (pairs.getD depth (0, 0)).2

theorem sideHash_append (key : Key) (pairs : List (ValueHash × ValueHash)) (pair : ValueHash × ValueHash)
    {depth : Nat} (inside : depth < pairs.length) :
    sideHash key (pairs ++ [pair]) depth = sideHash key pairs depth := by
  simp [sideHash, List.getD_eq_getElem?_getD, List.getElem?_append_left inside]

/-- The loop of `finalize`: the entry folded up with the left hashes where its key has a one and
the right hashes where it has a zero. -/
theorem foldl_zipIdx_eq_foldPath (H : HashTree) (key : Key) (pairs : List (ValueHash × ValueHash))
    (hash : ValueHash) :
    pairs.zipIdx.foldl (fun hash ((left, right), depth) =>
        if key.bit depth then H.hashBranch left hash else H.hashBranch hash right) hash =
      Merkle.foldPath H.hashBranch (sideHash key pairs) key.toNat hash pairs.length := by
  induction pairs using List.reverseRecOn with
  | nil => rfl
  | append_singleton pairs pair ih =>
    obtain ⟨left, right⟩ := pair
    have earlier : Merkle.foldPath H.hashBranch (sideHash key (pairs ++ [(left, right)])) key.toNat
        hash pairs.length = Merkle.foldPath H.hashBranch (sideHash key pairs) key.toNat hash pairs.length :=
      Merkle.foldPath_sibling_congr _ _ _ fun depth inside => sideHash_append key pairs _ inside
    rw [List.zipIdx_append, List.foldl_append, ih, List.length_append, List.length_singleton,
      Merkle.foldPath_succ, earlier]
    by_cases one : key.toNat.testBit pairs.length <;> simp [sideHash, U256.bit, one]

/-- `finalize`: the final entry folded to the root with the updated contour on its left and its
proof on its right. -/
theorem finalize_eq (H : HashTree) {self updated : TreeRangeDigest} (finalEntry : TreeEntryWithProof)
    (updated_eq : self.update H finalEntry.base = some updated) :
    self.finalize H finalEntry =
      some (Merkle.foldPath H.hashBranch
        (sideHash finalEntry.base.key (updated.leftContour.toList.zip (H.extendMerklePath finalEntry.merklePath)))
        finalEntry.base.key.toNat (H.hashLeaf finalEntry.base.value finalEntry.base.leafIndex)
        (updated.leftContour.toList.zip (H.extendMerklePath finalEntry.merklePath)).length) := by
  simp only [finalize, updated_eq, Option.bind_eq_bind, Option.bind_some, Option.pure_def,
    foldl_zipIdx_eq_foldPath]

end TreeRangeDigest

section TopKey

/-- The key `2 ^ 255`: its top bit alone is set. -/
theorem toNat_top : ((1 : U256) <<< 255).toNat = 2 ^ 255 := by decide

theorem findDivergingBit_zero_top : findDivergingBit 0 ((1 : U256) <<< 255) = 0 := by
  simp only [findDivergingBit, U256.leadingZeros]
  decide

theorem bit_top (depth : Nat) :
    U256.bit ((1 : U256) <<< 255) depth = decide (depth = 255) := by
  rw [U256.bit, toNat_top, Nat.testBit_two_pow]
  by_cases top : depth = 255 <;> simp [top, eq_comm]

/-- Updating the digest of a leaf with key `0` and an empty contour with the key `2 ^ 255`: the
keys diverge at the top, so the leaf is folded up to the level below the root and recorded
there. -/
theorem update_zero_top (H : HashTree) (leaf : TreeEntry) (zero : leaf.key = 0) :
    (⟨LeafNode.new leaf, Vector.ofFn fun depth => H.emptySubtreeHash depth⟩ : TreeRangeDigest).update H
        (TreeEntry.empty ((1 : U256) <<< 255)) =
      some ⟨LeafNode.new (TreeEntry.empty ((1 : U256) <<< 255)),
        (Vector.ofFn fun depth => H.emptySubtreeHash depth).set 255 ((LeafNode.new leaf).hash H 1)
          (by decide)⟩ := by
  have key : (LeafNode.new leaf).fullKey = 0 := zero
  have greater : (LeafNode.new leaf).fullKey < (TreeEntry.empty ((1 : U256) <<< 255)).key := by
    rw [key]
    decide
  rw [TreeRangeDigest.update_eq H _ _ greater, Option.some.injEq, TreeRangeDigest.mk.injEq]
  refine ⟨rfl, ?_⟩
  have level : TREE_DEPTH -
      (findDivergingBit (LeafNode.new leaf).fullKey (TreeEntry.empty ((1 : U256) <<< 255)).key + 1) = 255 := by
    rw [key, TreeEntry.empty, findDivergingBit_zero_top]
    rfl
  -- the key `0` has no bit set: every sibling on the way up is an empty subtree
  have collapsed : ∀ n, Merkle.foldPath H.hashBranch
      (fun depth => if U256.bit (LeafNode.new leaf).fullKey depth then
        TreeRangeDigest.leftHash (Vector.ofFn fun depth => H.emptySubtreeHash depth) depth
        else H.emptySubtreeHash depth)
      (LeafNode.new leaf).fullKey.toNat (H.hashLeaf (LeafNode.new leaf).valueHash (LeafNode.new leaf).leafIndex) n =
      Merkle.foldPath H.hashBranch H.emptySubtreeHash (LeafNode.new leaf).fullKey.toNat
        (H.hashLeaf (LeafNode.new leaf).valueHash (LeafNode.new leaf).leafIndex) n := by
    intro n
    apply Merkle.foldPath_sibling_congr
    intro depth _
    simp [key, U256.bit]
  apply Vector.ext
  intro depth below
  rw [Vector.getElem_set, Vector.getElem_set, Vector.getElem_ofFn, Vector.getElem_ofFn]
  simp only [level, collapsed, LeafNode.hash_eq_foldPath]
  by_cases top : 255 = depth
  · rw [if_pos top, if_pos top]
    rfl
  · rw [if_neg top, if_neg top]
    split
    · rfl
    · rw [Fin.getElem_fin, Vector.getElem_ofFn]

/-- Finalizing that digest with the key `2 ^ 255`: the top hash of the final proof is on the left
of the key, where the contour's hash is taken instead, and below the top the key is a left child
with empty subtrees on its right. -/
theorem finalize_zero_top (H : HashTree) (emptyLeaf : H.hashLeaf 0 0 = H.emptySubtreeHash 0)
    (leaf : TreeEntry) (zero : leaf.key = 0) (topHash : ValueHash) :
    (⟨LeafNode.new leaf, Vector.ofFn fun depth => H.emptySubtreeHash depth⟩ : TreeRangeDigest).finalize H
        ⟨TreeEntry.empty ((1 : U256) <<< 255), [topHash]⟩ =
      some (H.hashBranch ((LeafNode.new leaf).hash H 1) (H.emptySubtreeHash 255)) := by
  rw [TreeRangeDigest.finalize_eq H _ (update_zero_top H leaf zero)]
  dsimp only [TreeEntry.empty]
  generalize pairsEq : ((Vector.ofFn fun depth => H.emptySubtreeHash depth).set 255
    ((LeafNode.new leaf).hash H 1) (by decide) : Vector ValueHash TREE_DEPTH).toList.zip
      (H.extendMerklePath [topHash]) = pairs
  have extended : H.extendMerklePath [topHash] = (List.range 255).map H.emptySubtreeHash ++ [topHash] :=
    rfl
  have length : pairs.length = 255 + 1 := by
    rw [← pairsEq, List.length_zip, Vector.length_toList, extended]
    simp [TREE_DEPTH, KEY_SIZE]
  have low : ∀ d < 255, TreeRangeDigest.sideHash ((1 : U256) <<< 255) pairs d = H.emptySubtreeHash d := by
    intro d below
    have inside : d < pairs.length := by omega
    rw [TreeRangeDigest.sideHash, bit_top, decide_eq_false (by omega), if_neg Bool.false_ne_true,
      List.getD_eq_getElem?_getD, List.getElem?_eq_getElem inside, Option.getD_some]
    simp only [← pairsEq, List.getElem_zip, extended]
    rw [List.getElem_append_left (by simpa using below), List.getElem_map, List.getElem_range]
  have high : TreeRangeDigest.sideHash ((1 : U256) <<< 255) pairs 255 = (LeafNode.new leaf).hash H 1 := by
    rw [TreeRangeDigest.sideHash, bit_top, decide_eq_true rfl, if_pos rfl,
      List.getD_eq_getElem?_getD, List.getElem?_eq_getElem (by omega), Option.getD_some]
    simp only [← pairsEq, List.getElem_zip, Vector.getElem_toList, Vector.getElem_set_self]
  have vacant : H.emptySubtreeHash = Merkle.emptyRoot H.hashBranch (H.emptySubtreeHash 0) :=
    funext H.emptySubtreeHash_eq_emptyRoot
  have below : Merkle.foldPath H.hashBranch (TreeRangeDigest.sideHash ((1 : U256) <<< 255) pairs)
      ((1 : U256) <<< 255).toNat (H.hashLeaf 0 0) 255 = H.emptySubtreeHash 255 := by
    rw [Merkle.foldPath_sibling_congr _ _ _ low, emptyLeaf, vacant, Merkle.foldPath_of_vacant]
  have top : ((1 : U256) <<< 255).toNat.testBit 255 = true := by
    rw [toNat_top, Nat.testBit_two_pow_self]
  rw [length, Merkle.foldPath_succ, if_pos top, high]
  exact congrArg (fun hash => some (H.hashBranch _ hash)) below

/-- The range from the key `0`, given with a proof of no hashes, to the key `2 ^ 255`, given with
a proof of one hash: the digest is the hash of the leaf of `0` alone in the tree, whatever the
hash in the final proof. -/
theorem digest_zero_top (H : HashTree) (emptyLeaf : H.hashLeaf 0 0 = H.emptySubtreeHash 0)
    (leaf : TreeEntry) (zero : leaf.key = 0) (topHash : ValueHash) :
    ((TreeRangeDigest.new H 0 ⟨leaf, []⟩).bind fun digest =>
        digest.finalize H ⟨TreeEntry.empty ((1 : U256) <<< 255), [topHash]⟩) =
      some ((LeafNode.new leaf).hash H 0) := by
  have key : (LeafNode.new leaf).fullKey = 0 := zero
  have lower : ((LeafNode.new leaf).fullKey.toNat).testBit 255 = false := by
    rw [key]
    simp
  rw [TreeRangeDigest.new_nil, Option.bind_some, finalize_zero_top H emptyLeaf leaf zero,
    LeafNode.hash_eq_foldPath, LeafNode.hash_eq_foldPath]
  rw [show TREE_DEPTH - 0 = 255 + 1 from rfl, Merkle.foldPath_succ, if_neg (by rw [lower]; decide)]
  rfl

/-! ### The range proof that the tree gives -/

open Nibbles in
theorem sortedKeys_zero_top :
    (SortedKeys.new [0, (1 : U256) <<< 255]).keys = [((0 : Nat), (0 : Key)), (1, (1 : U256) <<< 255)] := by
  unfold SortedKeys.new
  apply List.mergeSort_of_pairwise
  decide

open Nibbles in
/-- Loading the ancestors of `0` and `2 ^ 255` below the root over a moved leaf of key `0`: the
leaf is loaded for `0`, and `2 ^ 255` has no child in the root. -/
theorem loadAncestors_rootOverLeaf_top (db : PatchSet) (leaf : LeafNode) (zero : leaf.fullKey = 0)
    {leafCount : Nat} (positive : 0 < leafCount)
    (moved : db.tryTreeNode ⟨1, Nibbles.new leaf.fullKey 1⟩ true = some (.leaf leaf)) :
    (WorkingPatchSet.new 1 (.filled leafCount positive (.internal (rootOverLeaf leaf 1)))).loadAncestors
      (SortedKeys.new [0, (1 : U256) <<< 255]) db =
      some ([Nibbles.new leaf.fullKey 1, EMPTY], WorkingPatchSet.withLoadedLeaf leaf 1) := by
  have split1 : (new leaf.fullKey 1).splitLast = some (EMPTY, nibble leaf.fullKey 0) := by
    rw [splitLast_new leaf.fullKey (show 0 < 64 by decide), new_zero]
  have split2 : (new leaf.fullKey 2).splitLast = some (new leaf.fullKey 1, nibble leaf.fullKey 1) :=
    splitLast_new leaf.fullKey (by decide)
  have splitTop : (new ((1 : U256) <<< 255) 1).splitLast = some (EMPTY, 8) := by
    rw [splitLast_new _ (show 0 < 64 by decide), new_zero]
    decide
  have small : (nibble leaf.fullKey 0).toNat < 16 := nibble_lt leaf.fullKey (by decide)
  have absent : (rootOverLeaf leaf 1).childRef 8 = none := by
    rw [childRef_rootOverLeaf _ _ (by decide), zero]
    decide
  have keys : (SortedKeys.new [leaf.fullKey, (1 : U256) <<< 255]).keys =
      [(0, leaf.fullKey), (1, (1 : U256) <<< 255)] := by
    rw [zero]
    exact sortedKeys_zero_top
  rw [← zero]
  generalize (1 : U256) <<< 255 = top at splitTop keys ⊢
  simp only [WorkingPatchSet.loadAncestors, WorkingPatchSet.get, WorkingPatchSet.getWorking_new_filled]
  rw [WorkingPatchSet.loadAncestorsLoop, keys]
  simp [WorkingPatchSet.requestKeys, WorkingPatchSet.requestKey, split1, splitTop, WorkingPatchSet.childRef,
    WorkingPatchSet.get, WorkingPatchSet.getWorking_new_filled, childRef_rootOverLeaf _ _ small, absent,
    KEY_SIZE, Database.treeNodes, ChildRef.leaf, moved, Nibbles.withVersion]
  -- the second level finds no child below the leaf, and the key `2 ^ 255` is settled already
  rw [WorkingPatchSet.loadAncestorsLoop, keys]
  simp [WorkingPatchSet.requestKeys, WorkingPatchSet.requestKey, split2, WorkingPatchSet.childRef,
    WorkingPatchSet.get, WorkingPatchSet.pushLevelFromDb, WorkingPatchSet.getWorking, KEY_SIZE,
    WorkingPatchSet.new, HashMap.lookup_singleton, WorkingPatchSet.withLoadedLeaf]

open Nibbles in
/-- The path through the root over a moved leaf of key `0`, its cache filled, for the nibble `8`:
the siblings in the right half are empty, and the left half holds the leaf's slot. -/
theorem extendMerklePath_cachedRoot_eight (H : HashTree) (leaf : LeafNode)
    (first : nibble leaf.fullKey 0 = 0) :
    ∃ topHash, ({ rootOverLeaf leaf 1 with
        cache := some ((rootOverLeaf leaf 1).hashWithCache H 0).2 } : InternalNode).extendMerklePath
          H 0 8 ⟨4, []⟩ =
      some (⟨0, [topHash]⟩, { rootOverLeaf leaf 1 with
        cache := some ((rootOverLeaf leaf 1).hashWithCache H 0).2 }) := by
  have vacant := vacantBut_childHashes_rootOverLeaf leaf 1
  rw [first, show UInt8.toNat 0 = 0 from rfl] at vacant
  have firstLevel := vacant.pairUp H (TREE_DEPTH - (0 + 4)) 8 (by decide)
  have secondLevel := firstLevel.pairUp H (TREE_DEPTH - (0 + 3)) 4 (by decide)
  -- the leaf's slot is filled, so the left half of the subtree has a hash
  have leafSlot : (slot (rootOverLeaf leaf 1).childHashes 0).isSome := by
    rw [InternalNode.slot_childHashes _ (by decide), childRef_rootOverLeaf _ _ (by decide), first]
    rfl
  have leftHalf : (slot (InternalNode.pairUp H (TREE_DEPTH - (0 + 2)) 2
      (InternalNode.pairUp H (TREE_DEPTH - (0 + 3)) 4
        (InternalNode.pairUp H (TREE_DEPTH - (0 + 4)) 8 (rootOverLeaf leaf 1).childHashes))) 0).isSome := by
    rw [InternalNode.slot_pairUp H _ (by decide), if_pos (by decide)]
    apply H.isSome_hashOptionalBranch
    rw [InternalNode.slot_pairUp H _ (by decide), if_pos (by decide)]
    apply H.isSome_hashOptionalBranch
    rw [InternalNode.slot_pairUp H _ (by decide), if_pos (by decide)]
    exact H.isSome_hashOptionalBranch _ _ leafSlot
  obtain ⟨topHash, filled⟩ := Option.isSome_iff_exists.mp leftHalf
  have sibling : (rootOverLeaf leaf 1).children.get (8 ^^^ 1) = none := by
    change (rootOverLeaf leaf 1).childRef (8 ^^^ 1) = none
    rw [childRef_rootOverLeaf _ _ (by decide), first]
    rfl
  have third : (Vector.ofFn fun i : Fin 2 => slot (InternalNode.pairUp H (TREE_DEPTH - (0 + 2)) 2
      (InternalNode.pairUp H (TREE_DEPTH - (0 + 3)) 4
        (InternalNode.pairUp H (TREE_DEPTH - (0 + 4)) 8 (rootOverLeaf leaf 1).childHashes))) i.val)[0]? =
      some (some topHash) := by
    simp [filled]
  refine ⟨topHash, ?_⟩
  simp only [InternalNode.extendMerklePath, InternalNode.childRef, sibling, Option.map_none,
    hashWithCache_snd]
  simp only [InternalNodeCache.extendMerklePath, show UInt8.toNat 8 / 2 ^^^ 1 = 5 from rfl,
    show UInt8.toNat 8 / 2 / 2 ^^^ 1 = 3 from rfl, show UInt8.toNat 8 / 2 / 2 / 2 ^^^ 1 = 0 from rfl,
    firstLevel.getElem?_ofFn (show 5 < 8 by decide) (by decide),
    secondLevel.getElem?_ofFn (show 3 < 4 by decide) (by decide), third,
    MerklePath.push_nil_none, Option.bind_eq_bind, Option.bind_some, Option.pure_def]
  rfl

open Nibbles in
/-- The proof of `2 ^ 255` through the root over a moved leaf of key `0`, with the root's cache
filled: the root has no child at nibble `8`, and the only hash on the way up is that of the left
half of the root's subtree, which holds the leaf's slot. -/
theorem createProof_withProvedLeaf_top (H : HashTree) (leaf : LeafNode) (zero : leaf.fullKey = 0) :
    ∃ topHash patchSet,
      (WorkingPatchSet.withProvedLeaf H leaf 1).createProof H ((1 : U256) <<< 255) EMPTY 0 =
        some ((none, ⟨0, [topHash]⟩), patchSet) := by
  have first : nibble leaf.fullKey 0 = 0 := by
    rw [zero]
    decide
  have otherBytes : (new ((1 : U256) <<< 255) 1).bytes ≠ (new leaf.fullKey 1).bytes := by
    rw [zero]
    decide
  have splitTop : (new ((1 : U256) <<< 255) 1).splitLast = some (EMPTY, 8) := by
    rw [splitLast_new _ (show 0 < 64 by decide), new_zero]
    decide
  generalize (1 : U256) <<< 255 = top at otherBytes splitTop ⊢
  unfold WorkingPatchSet.createProof WorkingPatchSet.traverse
  rw [show 2 * KEY_SIZE + 1 - EMPTY.nibbleCount = 63 + 1 + 1 from rfl, WorkingPatchSet.traverseFrom,
    WorkingPatchSet.traverseFrom]
  simp [WorkingPatchSet.get, WorkingPatchSet.getWorking, WorkingPatchSet.withProvedLeaf,
    HashMap.lookup_singleton, TraverseOutcome.position, new_nibbleCount, new_zero, otherBytes]
  -- one step up, through the root
  obtain ⟨topHash, path⟩ := extendMerklePath_cachedRoot_eight H leaf first
  refine ⟨topHash, ?_⟩
  rw [WorkingPatchSet.proofPathUp]
  simp [splitTop, WorkingPatchSet.modifyInternal, HashMap.lookup_singleton, MerklePath.new, path,
    WorkingPatchSet.proofPathUp]

end TopKey

/-- After one entry of key `0` is put in an empty tree by `extend` and a version of no entries
follows by `extend_with_proofs`, which moves the leaf root under an internal root, the range proof from `0` to `2 ^ 255` of version `1` does not give
back its root hash: no key lies between the bounds, so the digest is made of the two proofs alone,
and the empty path of the first folds to the hash of the leaf without the root above it. -/
theorem rangeDigest_after_extendWithProofs_nil (H : HashTree)
    (emptyLeaf : H.hashLeaf 0 0 = H.emptySubtreeHash 0) (entry : TreeEntry) (zero : entry.key = 0)
    (differ : (LeafNode.new entry).hash H 0 ≠ (rootOverLeaf (LeafNode.new entry) 1).hash H 0) :
    ∃ topHash : ValueHash,
      ((⟨default, H⟩ : MerkleTree PatchSet).extend [entry] >>= fun first =>
          first.2.extendWithProofs []).map (fun second =>
            (second.2.entriesWithProofs 1 [0, (1 : U256) <<< 255], second.2.rootHash 1)) =
        .ok (some (.ok [⟨entry, []⟩, ⟨TreeEntry.empty ((1 : U256) <<< 255), [topHash]⟩]),
          some ((rootOverLeaf (LeafNode.new entry) 1).hash H 0)) ∧
      ((TreeRangeDigest.new H 0 ⟨entry, []⟩).bind fun digest =>
          digest.finalize H ⟨TreeEntry.empty ((1 : U256) <<< 255), [topHash]⟩) ≠
        some ((rootOverLeaf (LeafNode.new entry) 1).hash H 0) := by
  obtain ⟨db, first, wrote⟩ := MerkleTree.extend_single_default H entry
  obtain ⟨db', second, wrote'⟩ :=
    MerkleTree.extendWithProofs_nil_leafRoot ⟨db, H⟩ (v := 0) wrote.versionCount wrote.tryRoot_self
  have moved : db'.tryTreeNode ⟨1, Nibbles.new entry.key 1⟩ true = some (.leaf (LeafNode.new entry)) := by
    rw [wrote'.nodes _ _ rfl]
    simp [HashMap.lookup_singleton, Node.clone, LeafNode.new]
  have stored : Database.tryRoot db' 1 =
      some (.filled 1 Nat.one_pos (.internal (rootOverLeaf (LeafNode.new entry) 1))) :=
    wrote'.tryRoot_self
  have key : (LeafNode.new entry).fullKey = 0 := zero
  have load := loadAncestors_rootOverLeaf_top db' (LeafNode.new entry) key Nat.one_pos moved
  have proved := createProof_withLoadedLeaf H (LeafNode.new entry) 1
  obtain ⟨topHash, patchSet, provedTop⟩ := createProof_withProvedLeaf_top H (LeafNode.new entry) key
  refine ⟨topHash, ?_, ?_⟩
  · rw [← key] at load ⊢
    generalize (1 : U256) <<< 255 = top at load provedTop ⊢
    rw [first]
    simp only [bind, Except.bind, second, Except.map, MerkleTree.entriesWithProofs,
      loadAndTransformEntries, stored]
    rw [load]
    simp [MerkleTree.rootHash, stored, transformEntries, MerkleTree.proveEntry, proved, provedTop,
      Root.hash, Node.hash]
    exact ⟨rfl, rfl⟩
  · rw [digest_zero_top H emptyLeaf entry zero topHash]
    exact fun same => differ (Option.some.inj same)

/-- The hasher of `orHasher` with an empty leaf that hashes to the empty subtree, as the leaf of
value `0` and index `0` does under Blake2: indexed leaves hash to 1, branches combine by bitwise
or. -/
def indexOrHasher : HashTree where
  name := "or"
  hashLeaf _ leafIndex := if leafIndex = 0 then 0 else 1
  hashBranch lhs rhs := lhs ||| rhs
  emptySubtreeHash _ := 0
  emptySubtreeHash_succ := orHasher.emptySubtreeHash_succ

theorem LeafNode.hash_indexOrHasher (leaf : LeafNode) (indexed : leaf.leafIndex ≠ 0) (level : Nat) :
    leaf.hash indexOrHasher level = 1 := by
  have start : indexOrHasher.hashLeaf leaf.valueHash leaf.leafIndex = 1 := if_neg indexed
  unfold LeafNode.hash
  rw [start]
  apply List.foldl_fixed'
  intro depth
  by_cases bit : leaf.fullKey.bit depth <;> simp [bit, indexOrHasher]

theorem rangeDigest_after_extendWithProofs_nil_indexOrHasher :
    indexOrHasher.hashLeaf 0 0 = indexOrHasher.emptySubtreeHash 0 ∧ (⟨0, 1, 1⟩ : TreeEntry).key = 0 ∧
    (LeafNode.new ⟨0, 1, 1⟩).hash indexOrHasher 0 ≠
      (rootOverLeaf (LeafNode.new ⟨0, 1, 1⟩) 1).hash indexOrHasher 0 ∧
    ∃ topHash : ValueHash,
      ((⟨default, indexOrHasher⟩ : MerkleTree PatchSet).extend [⟨0, 1, 1⟩] >>= fun first =>
          first.2.extendWithProofs []).map (fun second =>
            (second.2.entriesWithProofs 1 [0, (1 : U256) <<< 255], second.2.rootHash 1)) =
        .ok (some (.ok [⟨⟨0, 1, 1⟩, []⟩, ⟨TreeEntry.empty ((1 : U256) <<< 255), [topHash]⟩]),
          some ((rootOverLeaf (LeafNode.new ⟨0, 1, 1⟩) 1).hash indexOrHasher 0)) ∧
      ((TreeRangeDigest.new indexOrHasher 0 ⟨⟨0, 1, 1⟩, []⟩).bind fun digest =>
          digest.finalize indexOrHasher ⟨TreeEntry.empty ((1 : U256) <<< 255), [topHash]⟩) ≠
        some ((rootOverLeaf (LeafNode.new ⟨0, 1, 1⟩) 1).hash indexOrHasher 0) :=
  have differ : (LeafNode.new ⟨0, 1, 1⟩).hash indexOrHasher 0 ≠
      (rootOverLeaf (LeafNode.new ⟨0, 1, 1⟩) 1).hash indexOrHasher 0 := by
    rw [LeafNode.hash_indexOrHasher _ one_ne_zero]
    decide
  ⟨rfl, rfl, differ, rangeDigest_after_extendWithProofs_nil indexOrHasher rfl ⟨0, 1, 1⟩ rfl differ⟩

end ZksyncEra.MerkleTree
