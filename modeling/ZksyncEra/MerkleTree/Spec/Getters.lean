import ZksyncEra.MerkleTree.Getters
import ZksyncEra.MerkleTree.Spec.LeafRoot
import ZksyncEra.Merkle.Levels

/-!
Reading entries with proofs from the version that an empty block with proofs stores over a root
leaf (`getters.rs`, `storage/patch.rs`, `hasher/proofs.rs`).

`extend_with_proofs` of an empty block over a root leaf stores, as the new root, an internal node
over the moved leaf whose reference keeps the blank hash (`Spec.LeafRoot`). `root_hash` of that
version hashes the root from that reference. `entries_with_proofs` loads the leaf below it and
builds its proof from the other references and the hash cache of the root: all empty, so the
path is empty, and folded from the entry it gives the hash of the leaf alone. The proof of a
present key then fails `verify` against `root_hash` once the two hashes differ, while `entries`
returns the entry itself.

The vacancy of the cache comes as a lemma on the rounds of `hash_inner`; the walk of
`load_ancestors` and the proof of `create_proof` as lemmas on the patch set with the leaf loaded.
-/

namespace ZksyncEra.MerkleTree

open Nibbles

/-- The slots below `width` other than `m` hold no hash. -/
def VacantBut (hashes : Vector (Option ValueHash) 16) (m width : Nat) : Prop :=
  ∀ j < width, j ≠ m → slot hashes j = none

theorem VacantBut.pairUp (H : HashTree) (subtreeDepth : Nat) {hashes : Vector (Option ValueHash) 16}
    {m : Nat} (len : Nat) (fits : len ≤ 8) (vacant : VacantBut hashes m (2 * len)) :
    VacantBut (InternalNode.pairUp H subtreeDepth len hashes) (m / 2) len := by
  intro j below other
  rw [InternalNode.slot_pairUp H subtreeDepth fits, if_pos below,
    vacant (2 * j) (by omega) (by omega), vacant (2 * j + 1) (by omega) (by omega)]
  rfl

theorem vacantBut_childHashes_rootOverLeaf (leaf : LeafNode) (version : Nat) :
    VacantBut (rootOverLeaf leaf version).childHashes (nibble leaf.fullKey 0).toNat 16 := by
  intro j below other
  have exact : j.toUInt8.toNat = j := by
    rw [Nat.toUInt8_eq, UInt8.toNat_ofNat_of_lt' (by unfold UInt8.size; omega)]
  have small : j.toUInt8.toNat < 16 := by rw [exact]; exact below
  have differ : nibble leaf.fullKey 0 ≠ j.toUInt8 := by
    intro same
    rw [← same] at exact
    exact other exact.symm
  rw [InternalNode.slot_childHashes _ below, childRef_rootOverLeaf _ _ small, if_neg differ]
  rfl

theorem hashWithCache_snd (H : HashTree) (node : InternalNode) (level : Nat) :
    (node.hashWithCache H level).2 =
      let first := InternalNode.pairUp H (TREE_DEPTH - (level + 4)) 8 node.childHashes
      let second := InternalNode.pairUp H (TREE_DEPTH - (level + 3)) 4 first
      let third := InternalNode.pairUp H (TREE_DEPTH - (level + 2)) 2 second
      ⟨Vector.ofFn fun i => slot third i.val, Vector.ofFn fun i => slot second i.val,
        Vector.ofFn fun i => slot first i.val⟩ := by
  simp only [InternalNode.hashWithCache, InternalNode.hashInner, List.foldl, Option.map_some,
    InternalNodeCache.setLevel, Option.getD_some]
  rfl

theorem VacantBut.getElem?_ofFn {w : Nat} {hashes : Vector (Option ValueHash) 16} {m : Nat}
    (vacant : VacantBut hashes m w) {k : Nat} (below : k < w) (other : k ≠ m) :
    (Vector.ofFn fun i : Fin w => slot hashes i.val)[k]? = some none := by
  simp [below, vacant k below other]

/-- An empty subtree pushed onto a path with nothing collected is skipped. -/
theorem MerklePath.push_nil_none (H : HashTree) (current : Nat) :
    (⟨current, []⟩ : MerklePath).push H none = ⟨current - 1, []⟩ := rfl

/-- The proof path through the root over a moved leaf: the leaf is the only child, so the sibling
and every cached hash beside the way up are empty subtrees, which an empty path skips. -/
theorem extendMerklePath_rootOverLeaf (H : HashTree) (leaf : LeafNode) (version level current : Nat) :
    (rootOverLeaf leaf version).extendMerklePath H level (nibble leaf.fullKey 0) ⟨current, []⟩ =
      some (⟨current - 1 - 1 - 1 - 1, []⟩, { rootOverLeaf leaf version with
        cache := some ((rootOverLeaf leaf version).hashWithCache H level).2 }) := by
  have small := nibble_lt leaf.fullKey (show 0 < 64 by decide)
  generalize hn : (nibble leaf.fullKey 0).toNat = n at small
  have siblingSmall : (nibble leaf.fullKey 0 ^^^ 1).toNat < 16 := by
    rw [UInt8.toNat_xor, hn]
    exact Merkle.xor_one_lt_of_lt (m := 8) small
  have siblingOther : nibble leaf.fullKey 0 ≠ nibble leaf.fullKey 0 ^^^ 1 := by
    intro same
    have := congrArg UInt8.toNat same
    rw [UInt8.toNat_xor, hn] at this
    exact Merkle.xor_one_ne n this.symm
  have first := (vacantBut_childHashes_rootOverLeaf leaf version).pairUp H
    (TREE_DEPTH - (level + 4)) 8 (by decide)
  have second := first.pairUp H (TREE_DEPTH - (level + 3)) 4 (by decide)
  have third := second.pairUp H (TREE_DEPTH - (level + 2)) 2 (by decide)
  rw [hn] at first second third
  have uncached : (rootOverLeaf leaf version).cache = none := rfl
  simp only [InternalNode.extendMerklePath, childRef_rootOverLeaf _ _ siblingSmall,
    if_neg siblingOther, Option.map_none, uncached]
  rw [hashWithCache_snd]
  simp only [InternalNodeCache.extendMerklePath, hn,
    first.getElem?_ofFn (Merkle.xor_one_lt_of_lt (m := 4) (by omega)) (Merkle.xor_one_ne _),
    second.getElem?_ofFn (Merkle.xor_one_lt_of_lt (m := 2) (by omega)) (Merkle.xor_one_ne _),
    third.getElem?_ofFn (Merkle.xor_one_lt_of_lt (m := 1) (by omega)) (Merkle.xor_one_ne _),
    MerklePath.push_nil_none, Option.bind_eq_bind, Option.bind_some, Option.pure_def]

/-- Folding a path without hashes pads it with empty subtrees all the way: the hash of the entry's
leaf at the top. -/
theorem foldMerklePath_nil (H : HashTree) (entry : TreeEntry) :
    H.foldMerklePath [] entry = (LeafNode.new entry).hash H 0 := by
  simp only [HashTree.foldMerklePath, HashTree.extendMerklePath, List.length_nil, Nat.sub_zero,
    List.append_nil, List.zipIdx_map_range, List.foldl_map, LeafNode.hash]
  rfl

/-- The patch set once `load_ancestors` has loaded the moved leaf under the root over it. -/
def WorkingPatchSet.withLoadedLeaf (leaf : LeafNode) (version : Nat) : WorkingPatchSet :=
  ⟨version,
    [AList.singleton EMPTY.bytes ⟨.internal (rootOverLeaf leaf version), some (version - 1)⟩,
     AList.singleton (Nibbles.new leaf.fullKey 1).bytes ⟨.leaf leaf, some version⟩]⟩

theorem loadAncestors_rootOverLeaf (db : PatchSet) (leaf : LeafNode) {leafCount : Nat}
    (positive : 0 < leafCount)
    (moved : db.tryTreeNode ⟨1, Nibbles.new leaf.fullKey 1⟩ true = some (.leaf leaf)) :
    (WorkingPatchSet.new 1 (.filled leafCount positive (.internal (rootOverLeaf leaf 1)))).loadAncestors
      (SortedKeys.new [leaf.fullKey]) db =
      some ([Nibbles.new leaf.fullKey 1], WorkingPatchSet.withLoadedLeaf leaf 1) := by
  have split1 : (new leaf.fullKey 1).splitLast = some (EMPTY, nibble leaf.fullKey 0) := by
    rw [splitLast_new leaf.fullKey (show 0 < 64 by decide), new_zero]
  have split2 : (new leaf.fullKey 2).splitLast = some (new leaf.fullKey 1, nibble leaf.fullKey 1) :=
    splitLast_new leaf.fullKey (by decide)
  have small : (nibble leaf.fullKey 0).toNat < 16 := nibble_lt leaf.fullKey (by decide)
  simp [WorkingPatchSet.loadAncestors, WorkingPatchSet.get, WorkingPatchSet.getWorking_new_filled,
    SortedKeys.new]
  -- the first level requests the leaf, the second finds no child below it
  rw [WorkingPatchSet.loadAncestorsLoop]
  simp [WorkingPatchSet.requestKeys, WorkingPatchSet.requestKey, split1, WorkingPatchSet.childRef,
    WorkingPatchSet.get, WorkingPatchSet.getWorking_new_filled, childRef_rootOverLeaf _ _ small,
    KEY_SIZE, Database.treeNodes, ChildRef.leaf, moved, Nibbles.withVersion]
  rw [WorkingPatchSet.loadAncestorsLoop]
  simp [WorkingPatchSet.requestKeys, WorkingPatchSet.requestKey, split2, WorkingPatchSet.childRef,
    WorkingPatchSet.get, WorkingPatchSet.pushLevelFromDb, WorkingPatchSet.getWorking, KEY_SIZE,
    WorkingPatchSet.new, HashMap.lookup_singleton, WorkingPatchSet.withLoadedLeaf]

/-- The patch set once the proof of the moved leaf has filled the hash cache of the root. -/
def WorkingPatchSet.withProvedLeaf (H : HashTree) (leaf : LeafNode) (version : Nat) : WorkingPatchSet :=
  ⟨version,
    [AList.singleton EMPTY.bytes ⟨.internal { rootOverLeaf leaf version with
        cache := some ((rootOverLeaf leaf version).hashWithCache H 0).2 }, some (version - 1)⟩,
     AList.singleton (Nibbles.new leaf.fullKey 1).bytes ⟨.leaf leaf, some version⟩]⟩

theorem createProof_withLoadedLeaf (H : HashTree) (leaf : LeafNode) (version : Nat) :
    (WorkingPatchSet.withLoadedLeaf leaf version).createProof H leaf.fullKey
        (Nibbles.new leaf.fullKey 1) 0 =
      some ((some leaf, ⟨0, []⟩), WorkingPatchSet.withProvedLeaf H leaf version) := by
  have split1 : (new leaf.fullKey 1).splitLast = some (EMPTY, nibble leaf.fullKey 0) := by
    rw [splitLast_new leaf.fullKey (show 0 < 64 by decide), new_zero]
  have extended := extendMerklePath_rootOverLeaf H leaf version 0 4
  unfold WorkingPatchSet.createProof WorkingPatchSet.traverse
  rw [new_nibbleCount, show 2 * KEY_SIZE + 1 - 1 = 63 + 1 from rfl, WorkingPatchSet.traverseFrom]
  simp [WorkingPatchSet.get, WorkingPatchSet.getWorking, WorkingPatchSet.withLoadedLeaf,
    HashMap.lookup_singleton, TraverseOutcome.position, new_nibbleCount]
  -- one step up: the root over the leaf adds no hash
  rw [WorkingPatchSet.proofPathUp]
  simp [split1, WorkingPatchSet.modifyInternal, HashMap.lookup_singleton, MerklePath.new, extended,
    WorkingPatchSet.proofPathUp, AList.insert_singleton_eq, WorkingPatchSet.withProvedLeaf]

theorem get_withLoadedLeaf (leaf : LeafNode) (version : Nat) :
    (WorkingPatchSet.withLoadedLeaf leaf version).get (Nibbles.new leaf.fullKey 1) = some (.leaf leaf) := by
  simp [WorkingPatchSet.get, WorkingPatchSet.getWorking, WorkingPatchSet.withLoadedLeaf,
    HashMap.lookup_singleton, new_nibbleCount]

theorem LeafNode.toTreeEntry_new (entry : TreeEntry) : (LeafNode.new entry).toTreeEntry = entry := rfl

theorem entriesWithProofs_after_extendWithProofs_nil (H : HashTree) (format : HashFormat)
    (entry : TreeEntry) (index : entry.leafIndex = 1)
    (differ : (LeafNode.new entry).hash H 0 ≠ (rootOverLeaf (LeafNode.new entry) 1).hash H 0) :
    ((⟨default, H⟩ : MerkleTree PatchSet).extend [entry] >>= fun first =>
        first.2.extendWithProofs []).map (fun second =>
          (second.2.entries 1 [entry.key], second.2.entriesWithProofs 1 [entry.key],
            second.2.rootHash 1)) =
      .ok (some (.ok [entry]), some (.ok [⟨entry, []⟩]),
        some ((rootOverLeaf (LeafNode.new entry) 1).hash H 0)) ∧
    (⟨entry, []⟩ : TreeEntryWithProof).verify H format
        ((rootOverLeaf (LeafNode.new entry) 1).hash H 0) =
      .error ("Root hash mismatch: got " ++ format.display ((LeafNode.new entry).hash H 0) ++
        ", want " ++ format.display ((rootOverLeaf (LeafNode.new entry) 1).hash H 0)) := by
  obtain ⟨db, first, wrote⟩ := MerkleTree.extend_single_default H entry
  obtain ⟨db', second, wrote'⟩ :=
    MerkleTree.extendWithProofs_nil_leafRoot ⟨db, H⟩ (v := 0) wrote.versionCount wrote.tryRoot_self
  have moved : db'.tryTreeNode ⟨1, Nibbles.new entry.key 1⟩ true = some (.leaf (LeafNode.new entry)) := by
    rw [wrote'.nodes _ _ rfl]
    simp [HashMap.lookup_singleton, Node.clone, LeafNode.new]
  have stored : Database.tryRoot db' 1 =
      some (.filled 1 Nat.one_pos (.internal (rootOverLeaf (LeafNode.new entry) 1))) :=
    wrote'.tryRoot_self
  have load := loadAncestors_rootOverLeaf db' (LeafNode.new entry) Nat.one_pos moved
  have proved := createProof_withLoadedLeaf H (LeafNode.new entry) 1
  have key : (LeafNode.new entry).fullKey = entry.key := rfl
  have found := get_withLoadedLeaf (LeafNode.new entry) 1
  rw [key] at load proved found
  refine ⟨?_, ?_⟩
  · rw [first]
    simp only [bind, Except.bind, second, Except.map]
    simp [MerkleTree.entries, MerkleTree.entriesWithProofs, MerkleTree.rootHash,
      loadAndTransformEntries, stored, load, transformEntries, extractEntry, MerkleTree.proveEntry,
      proved, found, LeafNode.toTreeEntry_new, Root.hash, Node.hash]
    exact ⟨fun other => absurd key other, rfl⟩
  · simp [TreeEntryWithProof.verify, index, ensure, foldMerklePath_nil, differ]
    rfl


theorem entriesWithProofs_after_extendWithProofs_nil_orHasher :
    (⟨0, 1, 1⟩ : TreeEntry).leafIndex = 1 ∧
    (LeafNode.new ⟨0, 1, 1⟩).hash orHasher 0 ≠
      (rootOverLeaf (LeafNode.new ⟨0, 1, 1⟩) 1).hash orHasher 0 ∧
    (((⟨default, orHasher⟩ : MerkleTree PatchSet).extend [⟨0, 1, 1⟩] >>= fun first =>
        first.2.extendWithProofs []).map (fun second =>
          (second.2.entries 1 [0], second.2.entriesWithProofs 1 [0], second.2.rootHash 1)) =
      .ok (some (.ok [⟨0, 1, 1⟩]), some (.ok [⟨⟨0, 1, 1⟩, []⟩]),
        some ((rootOverLeaf (LeafNode.new ⟨0, 1, 1⟩) 1).hash orHasher 0)) ∧
    (⟨⟨0, 1, 1⟩, []⟩ : TreeEntryWithProof).verify orHasher decimalFormat
        ((rootOverLeaf (LeafNode.new ⟨0, 1, 1⟩) 1).hash orHasher 0) =
      .error ("Root hash mismatch: got " ++
        decimalFormat.display ((LeafNode.new ⟨0, 1, 1⟩).hash orHasher 0) ++ ", want " ++
        decimalFormat.display ((rootOverLeaf (LeafNode.new ⟨0, 1, 1⟩) 1).hash orHasher 0))) :=
  have differ : (LeafNode.new ⟨0, 1, 1⟩).hash orHasher 0 ≠
      (rootOverLeaf (LeafNode.new ⟨0, 1, 1⟩) 1).hash orHasher 0 := by
    rw [LeafNode.hash_orHasher]
    decide
  ⟨rfl, differ, entriesWithProofs_after_extendWithProofs_nil orHasher decimalFormat ⟨0, 1, 1⟩ rfl differ⟩

end ZksyncEra.MerkleTree
