import ZksyncEra.MerkleTree.Spec.ExtendWithProofs

/-!
A root leaf under `extend_with_proofs` (`storage/proofs.rs`, `storage/patch.rs`,
`consistency.rs`).

`ensure_internal_root_node` moves a root leaf one level down, under a new internal root whose
reference to the leaf is `ChildRef::leaf(version)`, whose hash is blank. `finalize_logs` writes
child hashes into the root only for the subtrees of writes. So a block with no write under the
moved leaf stores a root whose reference to the leaf keeps the blank hash.

This module runs the tree from the empty patch set: one `extend` with one entry gives a root
leaf, then `extend_with_proofs` of an empty block moves it. From that run:
* `verify_consistency` of the new version reports the blank hash;
* `extend` of the same empty block stores the leaf itself as the root.

The first block, then the moved leaf, then the consistency walk over it, each come as a lemma
about a general tree state; the results at the end compose them.
-/

set_option linter.dupNamespace false

namespace ZksyncEra.MerkleTree

open Nibbles

/-! ### Blocks over a root that is empty or a leaf -/

/-- An insert into the empty tree puts a root leaf. -/
theorem TreeUpdater.insert_emptyRoot (v : Nat) (entry : TreeEntry) :
    TreeUpdater.insert (WorkingPatchSet.new v .empty) entry EMPTY =
      some (.inserted, NewLeafData.new EMPTY (LeafNode.new entry),
        ⟨v, [AList.singleton EMPTY.bytes ⟨.leaf (LeafNode.new entry), none⟩]⟩) := by
  simp [TreeUpdater.insert, WorkingPatchSet.new, WorkingPatchSet.traverse,
    WorkingPatchSet.traverseFrom, KEY_SIZE, WorkingPatchSet.get, WorkingPatchSet.getWorking,
    TreeUpdater.setRootNode, WorkingPatchSet.insert, NewLeafData.new, TreeUpdater.bumpVersions,
    TraverseOutcome.position, new_zero, HashMap.lookup_singleton]

/-- `Storage::extend` of one entry over the empty tree: the entry becomes the root leaf, with
nothing stale. -/
theorem Storage.extend_single_emptyRoot {DB : Type} [Database DB] (storage : Storage DB)
    (entry : TreeEntry) {v : Nat} (updater : storage.updater = WorkingPatchSet.new v .empty)
    (count : storage.leafCount = 0) (operation : storage.operation = .insert) :
    storage.extend [entry] = some (⟨(LeafNode.new entry).hash storage.hasher 0, 1, [.inserted]⟩,
      PatchSet.new storage.manifest v (.filled 1 Nat.one_pos (.leaf (LeafNode.new entry))) ∅ []
        .insert) := by
  have fromRoot : Nibbles.fromParts EMPTY.bytes 0 = EMPTY := rfl
  have noAncestors : (WorkingPatchSet.new v .empty).loadAncestors (SortedKeys.new [entry.key])
      storage.db = some ([EMPTY], WorkingPatchSet.new v .empty) := by
    simp [WorkingPatchSet.loadAncestors, WorkingPatchSet.get, WorkingPatchSet.getWorking,
      WorkingPatchSet.new, SortedKeys.new]
  simp only [Storage.extend, updater, List.map_cons, List.map_nil, noAncestors,
    Option.bind_eq_bind, Option.bind_some, List.zip_cons_cons, List.zip_nil_right,
    Storage.insertEntries, TreeUpdater.insert_emptyRoot]
  simp [count, operation, Storage.finalize, WorkingPatchSet.finalize,
    WorkingPatchSet.finalizeInner, WorkingPatchSet.finalizeLevels, Root.new, fromRoot, Node.hash]

/-- `Storage::extend` of an empty block over a root leaf keeps the leaf as the root; the old
root goes stale. -/
theorem Storage.extend_nil_leafRoot {DB : Type} [Database DB] (storage : Storage DB)
    {v leafCount : Nat} {positive : 0 < leafCount} {leaf : LeafNode}
    (updater : storage.updater =
      WorkingPatchSet.new (v + 1) (.filled leafCount positive (.leaf leaf)))
    (count : storage.leafCount = leafCount) (operation : storage.operation = .insert) :
    storage.extend [] = some (⟨leaf.hash storage.hasher 0, leafCount, []⟩,
      PatchSet.new storage.manifest (v + 1) (.filled leafCount positive (.leaf leaf)) ∅
        [EMPTY.withVersion v] .insert) := by
  have fromRoot : Nibbles.fromParts EMPTY.bytes 0 = EMPTY := rfl
  simp only [Storage.extend, updater, List.map_nil, WorkingPatchSet.loadAncestors_leaf_root,
    Option.bind_eq_bind, Option.bind_some, List.zip_nil_left, Storage.insertEntries]
  simp [count, operation, Storage.finalize, WorkingPatchSet.finalize,
    WorkingPatchSet.finalizeInner, WorkingPatchSet.finalizeLevels, WorkingPatchSet.new, Root.new,
    positive, fromRoot, Node.hash]

/-! ### A read of the root leaf -/

/-- The first nibble of a key's prefix, as `split` reads it from the first byte. -/
theorem firstNibble_new (key : Key) {n : Nat} (pos : 0 < n) :
    ((Nibbles.new key n).bytes[0] >>> 4).toNat = (nibble key 0).toNat := by
  have high := byteAt_high (Nibbles.new key n) 0
  rw [byteAt_of_lt _ (by decide), nibbleAt_new key (by decide), if_pos pos] at high
  rw [nibble_toNat key (by decide), UInt8.toNat_shiftRight, ← high]
  simp [Nat.shiftRight_eq_div_pow]

theorem InstructionWithPrecomputes.split_read (key : Key) :
    InstructionWithPrecomputes.split [.read key] [EMPTY] =
      (List.range SUBTREE_COUNT).map fun part =>
        if part = (nibble key 0).toNat then [⟨0, .read key, EMPTY⟩] else [] := by
  unfold InstructionWithPrecomputes.split
  apply List.map_congr_left
  intro part _
  by_cases same : part = (nibble key 0).toNat
  · simp [same, TreeInstruction.key]
  · simp [same, TreeInstruction.key, Ne.symm same]

/-- The part of the moved leaf's subtree sees the root over the leaf and the leaf below it. -/
theorem get_splitPart_withMovedLeaf (leaf : LeafNode) (version : Nat) :
    ((WorkingPatchSet.withMovedLeaf leaf version).splitPart (nibble leaf.fullKey 0).toNat).get
        EMPTY = some (.internal (rootOverLeaf leaf version)) ∧
    ((WorkingPatchSet.withMovedLeaf leaf version).splitPart (nibble leaf.fullKey 0).toNat).get
        (Nibbles.new leaf.fullKey 1) = some (.leaf leaf) := by
  constructor
  all_goals simp only [WorkingPatchSet.get, WorkingPatchSet.getWorking_splitPart]
  · simp [WorkingPatchSet.getWorking, WorkingPatchSet.withMovedLeaf, HashMap.lookup_singleton,
      WorkingNode.clone, Node.clone, rootOverLeaf_clone]
  · have first : (Nibbles.new leaf.fullKey 1).bytes[0].toNat >>> 4 =
        (nibble leaf.fullKey 0).toNat := by
      simpa using firstNibble_new leaf.fullKey Nat.one_pos
    simp [WorkingPatchSet.getWorking, WorkingPatchSet.withMovedLeaf, HashMap.lookup_singleton,
      first]

theorem traverse_splitPart_withMovedLeaf (leaf : LeafNode) (version : Nat) :
    ((WorkingPatchSet.withMovedLeaf leaf version).splitPart
        (nibble leaf.fullKey 0).toNat).traverse leaf.fullKey EMPTY =
      some (.leafMatch (Nibbles.new leaf.fullKey 1) leaf) := by
  obtain ⟨root, moved⟩ := get_splitPart_withMovedLeaf leaf version
  unfold WorkingPatchSet.traverse
  -- two steps of the walk: the internal root, then the leaf
  rw [show 2 * KEY_SIZE + 1 - EMPTY.nibbleCount = 63 + 1 + 1 from rfl, EMPTY_nibbleCount,
    WorkingPatchSet.traverseFrom, new_zero, root]
  simp only
  rw [WorkingPatchSet.traverseFrom, moved]
  simp

/-- Proving the moved leaf in its part: the leaf matches one level down, right below the subtree
root, so the path stays empty and nothing changes. -/
theorem TreeUpdater.prove_movedLeaf (H : HashTree) (leaf : LeafNode) (version : Nat) :
    TreeUpdater.prove H ((WorkingPatchSet.withMovedLeaf leaf version).splitPart
        (nibble leaf.fullKey 0).toNat) leaf.fullKey EMPTY =
      some ((.read leaf.leafIndex leaf.valueHash, MerklePath.new 4),
        (WorkingPatchSet.withMovedLeaf leaf version).splitPart (nibble leaf.fullKey 0).toNat) := by
  have split : (Nibbles.new leaf.fullKey 1).splitLast = some (EMPTY, nibble leaf.fullKey 0) := by
    rw [splitLast_new leaf.fullKey (show 0 < 64 by decide), new_zero]
  simp [TreeUpdater.prove, WorkingPatchSet.createProof, traverse_splitPart_withMovedLeaf,
    TraverseOutcome.position, WorkingPatchSet.proofPathUp, split, SUBTREE_ROOT_LEVEL]

theorem TreeUpdater.extendPrecomputed_read_movedLeaf (H : HashTree) (leaf : LeafNode)
    (version index : Nat) :
    ∃ subtreeRootHash, TreeUpdater.extendPrecomputed H
        ((WorkingPatchSet.withMovedLeaf leaf version).splitPart (nibble leaf.fullKey 0).toNat)
        (nibble leaf.fullKey 0) [⟨index, .read leaf.fullKey, EMPTY⟩] =
      some ([(index, ⟨.read leaf.leafIndex leaf.valueHash, MerklePath.new 4, subtreeRootHash⟩)],
        (WorkingPatchSet.withMovedLeaf leaf version).splitPart (nibble leaf.fullKey 0).toNat) := by
  have small : nibble leaf.fullKey 0 < 16 := by
    rw [UInt8.lt_iff_toNat_lt]
    exact nibble_lt leaf.fullKey (by decide)
  obtain ⟨single, found⟩ : ∃ single, Nibbles.single (nibble leaf.fullKey 0) = some single := by
    simp [Nibbles.single, small]
  simp only [TreeUpdater.extendPrecomputed, found, TreeUpdater.applyInstructions,
    TreeUpdater.prove_movedLeaf, Option.bind_eq_bind, Option.bind_some]
  exact ⟨_, rfl⟩

/-- `Storage::extend_with_proofs` of a read of the root leaf: the log carries the hash of the new
internal root, whose reference to the moved leaf is still blank. -/
theorem Storage.extendWithProofs_read_leafRoot {DB : Type} [Database DB] (storage : Storage DB)
    {v leafCount : Nat} {positive : 0 < leafCount} {leaf : LeafNode}
    (updater : storage.updater =
      WorkingPatchSet.new (v + 1) (.filled leafCount positive (.leaf leaf)))
    (count : storage.leafCount = leafCount) :
    ∃ (path : List ValueHash) (root : InternalNode),
      storage.extendWithProofs [.read leaf.fullKey] = some (⟨[⟨.read leaf.leafIndex leaf.valueHash,
        path, (rootOverLeaf leaf (v + 1)).hash storage.hasher 0⟩], leafCount⟩,
        PatchSet.new storage.manifest (v + 1) (.filled leafCount positive (.internal root))
          (AList.singleton ⟨v + 1, Nibbles.new leaf.fullKey 1⟩ (.leaf leaf))
          [EMPTY.withVersion v] .insert) ∧
      path.length ≤ 4 := by
  let W := WorkingPatchSet.withMovedLeaf leaf (v + 1)
  let a := (nibble leaf.fullKey 0).toNat
  have small : a < 16 := nibble_lt leaf.fullKey (by decide)
  obtain ⟨rest, parts⟩ : ∃ rest, W.split = W.splitPart 0 :: rest :=
    ⟨_, by rw [WorkingPatchSet.split_eq, SUBTREE_COUNT, List.range_succ_eq_map]; rfl⟩
  obtain ⟨subtreeRootHash, readPart⟩ :=
    TreeUpdater.extendPrecomputed_read_movedLeaf storage.hasher leaf (v + 1) 0
  let log : TreeLogEntryWithProof MerklePath :=
    ⟨.read leaf.leafIndex leaf.valueHash, MerklePath.new 4, subtreeRootHash⟩
  -- the logs of the parts: the read in the leaf's part, none elsewhere
  let logsOf : Nat → List (Nat × TreeLogEntryWithProof MerklePath) :=
    fun i => if i = a then [(0, log)] else []
  have sortedOne : (SortedKeys.new [leaf.fullKey]).keys.length = 1 := by simp [SortedKeys.new]
  let instructionParts := InstructionWithPrecomputes.split [.read leaf.fullKey] [EMPTY]
  have sameLength : W.split.length = instructionParts.length := by
    simp [instructionParts, InstructionWithPrecomputes.split_read, WorkingPatchSet.split]
  have unzipped : ((W.split.zip instructionParts).zipIdx.map fun x => (x.1.1, logsOf x.2)).unzip =
      (W.split, (List.range SUBTREE_COUNT).map logsOf) := by
    refine Prod.ext ?_ ?_
    · rw [List.unzip_fst, List.map_map]
      rw [show (Prod.fst ∘ fun x : (WorkingPatchSet × List InstructionWithPrecomputes) × Nat =>
          (x.1.1, logsOf x.2)) = Prod.fst ∘ Prod.fst from rfl, ← List.map_map,
        List.zipIdx_map_fst, List.map_fst_zip (le_of_eq sameLength)]
    · rw [List.unzip_snd, List.map_map]
      rw [show (Prod.snd ∘ fun x : (WorkingPatchSet × List InstructionWithPrecomputes) × Nat =>
          (x.1.1, logsOf x.2)) = logsOf ∘ Prod.snd from rfl, ← List.map_map,
        List.zipIdx_map_snd]
      simp [List.range_eq_range', sameLength, instructionParts,
        InstructionWithPrecomputes.split_read]
  have merged := foldl_merge_split_withMovedLeaf leaf (v + 1) parts
  have mergedLogs : mergeByIndex ((List.range SUBTREE_COUNT).map logsOf) = [(a, log)] :=
    mergeByIndex_single small (0, log)
  obtain ⟨path, root', finalized, length, sameChildren⟩ :=
    TreeUpdater.finalizeLogs_read storage.hasher W (rootOverLeaf leaf (v + 1))
      (childCount_rootOverLeaf leaf (v + 1)) small log rfl
  have written := finalizeWithoutHashing_setRoot_withMovedLeaf leaf v storage.manifest positive
    sameChildren
  refine ⟨path.intoInner, root', ?_, by simpa [MerklePath.intoInner, log, MerklePath.new] using length⟩
  unfold Storage.extendWithProofs
  simp only [List.map_cons, List.map_nil, TreeInstruction.key, updater,
    WorkingPatchSet.loadAncestors_leaf_root, Option.bind_eq_bind, Option.bind_some,
    ensureInternalRootNode_new_leaf, sortedOne, List.replicate_one]
  rw [List.mapM_eq_some_map fun x => (x.1.1, logsOf x.2)]
  · simp only [Option.bind_some]
    rw [unzipped, mergedLogs]
    simp only [parts, merged, Storage.finalizeWithProofs]
    simp only [W] at finalized
    simp [count, finalized, written]
    rfl
  · -- each part runs its own instructions: the read in the moved leaf's part, nothing elsewhere
    intro x member
    obtain ⟨⟨part, instructions⟩, i⟩ := x
    obtain ⟨inside, atIndex⟩ := List.mem_zipIdx' member
    have index : i < 16 := by
      simp [WorkingPatchSet.split, SUBTREE_COUNT] at inside
      exact inside.1
    rw [List.getElem_zip] at atIndex
    obtain ⟨partEq, instructionsEq⟩ := Prod.mk.injEq _ _ _ _ ▸ atIndex
    have isPart : part = W.splitPart i := by
      rw [partEq, List.getElem_of_eq (WorkingPatchSet.split_eq W)]
      simp
    have isInstructions :
        instructions = if i = a then [⟨0, .read leaf.fullKey, EMPTY⟩] else [] := by
      rw [instructionsEq]
      simp [InstructionWithPrecomputes.split_read, a]
    subst isPart isInstructions
    have byte : u8TryFrom i = some i.toUInt8 := by simp [u8TryFrom, show i < 256 by omega]
    by_cases own : i = a
    · rw [own] at byte ⊢
      have nibbleEq : a.toUInt8 = nibble leaf.fullKey 0 := UInt8.toNat_inj.mp (by simp [a])
      simp only [byte, nibbleEq, Option.bind_some, W, a, if_true]
      rw [readPart]
      simp [logsOf, a]
      rfl
    · simp [byte, own, logsOf, TreeUpdater.extendPrecomputed_nil _ _ (toUInt8_lt_sixteen index)]

/-! ### The tree after each block -/

/-- `db'` is `db` with version `version` written by a patch of that version: the version count
covers it, its root, nodes and stale keys are the patch's, and every other version reads as
before. -/
structure Wrote (db db' : PatchSet) (version : Nat) (root : Root) (nodes : HashMap NodeKey Node)
    (stale : List NodeKey) : Prop where
  versionCount : db'.manifest.versionCount = version + 1
  roots : ∀ u, db'.tryRoot u = if u = version then some root.clone else db.tryRoot u
  nodes : ∀ key isLeaf, key.version = version →
    db'.tryTreeNode key isLeaf = (nodes.lookup key).map Node.clone
  staleKeys : ∀ u, db'.staleKeys u = if u = version then db.staleKeys u ++ stale else db.staleKeys u

theorem Wrote.of_applyPatch {db db' : PatchSet} {manifest : Manifest} {version : Nat} {root : Root}
    {nodes : HashMap NodeKey Node} {stale : List NodeKey}
    (count : db.manifest.versionCount ≤ manifest.versionCount)
    (newCount : manifest.versionCount = version + 1)
    (applied : db.applyPatch (PatchSet.new manifest version root nodes stale .insert) = .ok db') :
    Wrote db db' version root nodes stale := by
  obtain ⟨db'', applied', manifestEq, lookups⟩ :=
    PatchSet.applyPatch_new_insert db version root nodes stale count
  have same : db'' = db' := Except.ok.inj (applied'.symm.trans applied)
  subst same
  refine ⟨by rw [manifestEq, newCount], fun u => ?_, fun key isLeaf atVersion => ?_,
    PatchSet.staleKeys_applyPatch_new_insert db version root nodes stale applied⟩
  · by_cases own : u = version <;> simp [PatchSet.tryRoot, lookups, own]
  · simp [PatchSet.tryTreeNode, lookups, atVersion]

theorem Wrote.tryRoot_self {db db' : PatchSet} {version : Nat} {root : Root}
    {nodes : HashMap NodeKey Node} {stale : List NodeKey}
    (wrote : Wrote db db' version root nodes stale) : db'.tryRoot version = some root.clone := by
  rw [wrote.roots, if_pos rfl]

/-- The storage of the next version reads the stored root of the last one. -/
theorem Storage.new_of_tryRoot {DB : Type} [Database DB] (db : DB) (H : HashTree) (v : Nat)
    {root : Root} (stored : Database.tryRoot db v = some root) :
    (Storage.new db H (v + 1) true).updater = WorkingPatchSet.new (v + 1) root ∧
      (Storage.new db H (v + 1) true).leafCount = root.leafCount ∧
      (Storage.new db H (v + 1) true).operation = .insert := by
  simp [Storage.new, stored]

/-- `MerkleTree::extend` once the storage of the next version gives the patch of that version. -/
theorem MerkleTree.extend_of_storage (tree : MerkleTree PatchSet) {v : Nat}
    {entries : List TreeEntry} {output : BlockOutput} {root : Root} {nodes : HashMap NodeKey Node}
    {stale : List NodeKey} (versions : tree.db.manifest.versionCount = v)
    (extended : (Storage.new tree.db tree.hasher v true).extend entries = some (output,
      PatchSet.new (Storage.new tree.db tree.hasher v true).manifest v root nodes stale .insert)) :
    ∃ db, tree.extend entries = .ok (output, ⟨db, tree.hasher⟩) ∧
      Wrote tree.db db v root nodes stale := by
  obtain ⟨db, applied, -, -⟩ := @PatchSet.applyPatch_new_insert tree.db
    (Storage.new tree.db tree.hasher v true).manifest v root nodes stale
    (by simp [Storage.new, versions])
  refine ⟨db, ?_, Wrote.of_applyPatch (by simp [Storage.new, versions])
    (by simp [Storage.new]) applied⟩
  simp only [MerkleTree.extend, Database.tryManifest, PatchSet.tryManifest, Option.getD_some,
    versions, extended]
  simp [Database.applyPatch, applied]

/-- `MerkleTree::extend_with_proofs` once the storage of the next version gives the patch of that
version. -/
theorem MerkleTree.extendWithProofs_of_storage (tree : MerkleTree PatchSet) {v : Nat}
    {instructions : List TreeInstruction} {output : BlockOutputWithProofs} {root : Root}
    {nodes : HashMap NodeKey Node} {stale : List NodeKey}
    (versions : tree.db.manifest.versionCount = v)
    (extended : (Storage.new tree.db tree.hasher v true).extendWithProofs instructions =
      some (output,
        PatchSet.new (Storage.new tree.db tree.hasher v true).manifest v root nodes stale .insert)) :
    ∃ db, tree.extendWithProofs instructions = .ok (output, ⟨db, tree.hasher⟩) ∧
      Wrote tree.db db v root nodes stale := by
  obtain ⟨db, applied, -, -⟩ := @PatchSet.applyPatch_new_insert tree.db
    (Storage.new tree.db tree.hasher v true).manifest v root nodes stale
    (by simp [Storage.new, versions])
  refine ⟨db, ?_, Wrote.of_applyPatch (by simp [Storage.new, versions])
    (by simp [Storage.new]) applied⟩
  simp only [MerkleTree.extendWithProofs, Database.tryManifest, PatchSet.tryManifest,
    Option.getD_some, versions, extended]
  simp [Database.applyPatch, applied]

/-- The first block of the empty tree, of one entry, stores that entry as the root leaf of
version 0. -/
theorem MerkleTree.extend_single_default (H : HashTree) (entry : TreeEntry) :
    ∃ db, (⟨default, H⟩ : MerkleTree PatchSet).extend [entry] =
        .ok (⟨(LeafNode.new entry).hash H 0, 1, [.inserted]⟩, ⟨db, H⟩) ∧
      Wrote default db 0 (.filled 1 Nat.one_pos (.leaf (LeafNode.new entry))) ∅ [] :=
  MerkleTree.extend_of_storage ⟨default, H⟩ rfl
    (Storage.extend_single_emptyRoot _ entry (v := 0) rfl rfl rfl)

/-- `extend` of an empty block on a tree whose latest root is a leaf stores the leaf again as the
root of the next version; the old root goes stale. -/
theorem MerkleTree.extend_nil_leafRoot (tree : MerkleTree PatchSet) {v leafCount : Nat}
    {positive : 0 < leafCount} {leaf : LeafNode}
    (versions : tree.db.manifest.versionCount = v + 1)
    (stored : tree.db.tryRoot v = some (.filled leafCount positive (.leaf leaf))) :
    ∃ db, tree.extend [] = .ok (⟨leaf.hash tree.hasher 0, leafCount, []⟩, ⟨db, tree.hasher⟩) ∧
      Wrote tree.db db (v + 1) (.filled leafCount positive (.leaf leaf)) ∅
        [EMPTY.withVersion v] := by
  obtain ⟨updater, count, operation⟩ := Storage.new_of_tryRoot tree.db tree.hasher v stored
  exact MerkleTree.extend_of_storage tree versions
    (Storage.extend_nil_leafRoot _ updater count operation)

/-- `extend_with_proofs` of an empty block on a tree whose latest root is a leaf stores, as the
root of the next version, an internal node over the moved leaf whose reference keeps the blank
hash. -/
theorem MerkleTree.extendWithProofs_nil_leafRoot (tree : MerkleTree PatchSet) {v leafCount : Nat}
    {positive : 0 < leafCount} {leaf : LeafNode}
    (versions : tree.db.manifest.versionCount = v + 1)
    (stored : tree.db.tryRoot v = some (.filled leafCount positive (.leaf leaf))) :
    ∃ db, tree.extendWithProofs [] = .ok (⟨[], leafCount⟩, ⟨db, tree.hasher⟩) ∧
      Wrote tree.db db (v + 1)
        (.filled leafCount positive (.internal (rootOverLeaf leaf (v + 1))))
        (AList.singleton ⟨v + 1, Nibbles.new leaf.fullKey 1⟩ (.leaf leaf))
        [EMPTY.withVersion v] := by
  obtain ⟨updater, count, -⟩ := Storage.new_of_tryRoot tree.db tree.hasher v stored
  exact MerkleTree.extendWithProofs_of_storage tree versions
    (Storage.extendWithProofs_nil_leafRoot _ updater count)

/-- `extend_with_proofs` of a read of the leaf on a tree whose latest root is that leaf: one read
log, with a short path and the hash of the internal root over the moved leaf. -/
theorem MerkleTree.extendWithProofs_read_leafRoot (tree : MerkleTree PatchSet) {v leafCount : Nat}
    {positive : 0 < leafCount} {leaf : LeafNode}
    (versions : tree.db.manifest.versionCount = v + 1)
    (stored : tree.db.tryRoot v = some (.filled leafCount positive (.leaf leaf))) :
    ∃ (path : List ValueHash) (db : PatchSet),
      tree.extendWithProofs [.read leaf.fullKey] = .ok (⟨[⟨.read leaf.leafIndex leaf.valueHash,
        path, (rootOverLeaf leaf (v + 1)).hash tree.hasher 0⟩], leafCount⟩, ⟨db, tree.hasher⟩) ∧
      path.length ≤ 4 := by
  obtain ⟨updater, count, -⟩ := Storage.new_of_tryRoot tree.db tree.hasher v stored
  obtain ⟨path, root, extended, length⟩ := Storage.extendWithProofs_read_leafRoot _ updater count
  obtain ⟨db, proved, -⟩ := MerkleTree.extendWithProofs_of_storage tree versions extended
  exact ⟨path, db, proved, length⟩

/-! ### The consistency walk over the moved leaf -/

theorem children'_rootOverLeaf (leaf : LeafNode) (version : Nat) :
    (rootOverLeaf leaf version).children' = [(nibble leaf.fullKey 0, ChildRef.leaf version)] := by
  have small := nibble_lt leaf.fullKey (show 0 < 64 by decide)
  rw [InternalNode.children', SmallMap.iter_eq]
  apply List.filterMap_range_eq_singleton small
  intro k hk
  have toNat : k.toUInt8.toNat = k := by
    rw [Nat.toUInt8_eq, UInt8.toNat_ofNat_of_lt' (by unfold UInt8.size; omega)]
  have read := childRef_rootOverLeaf leaf version (j := k.toUInt8) (by omega)
  simp only [InternalNode.childRef] at read
  rw [read]
  by_cases same : k = (nibble leaf.fullKey 0).toNat
  · subst same
    simp
  · have other : nibble leaf.fullKey 0 ≠ k.toUInt8 := fun eq => same (by rw [eq, toNat])
    simp [other, same]

theorem childRefs_rootOverLeaf (leaf : LeafNode) (version : Nat) :
    (rootOverLeaf leaf version).childRefs = [ChildRef.leaf version] := by
  have small := nibble_lt leaf.fullKey (show 0 < 64 by decide)
  obtain ⟨_, values⟩ := SmallMap.insert_of_clear SmallMap.empty (ChildRef.leaf version) small
    (by simp [SmallMap.empty])
  simp only [InternalNode.childRefs, rootOverLeaf, InternalNode.insertChildRef, InternalNode.empty]
  rw [values]
  simp [SmallMap.empty, SmallMap.rank]

theorem EMPTY_push (key : Key) : EMPTY.push (nibble key 0) = some (Nibbles.new key 1) := by
  rw [← new_zero key]
  exact push_new key (by decide)

/-- The first leaf seen, with an index in range, is recorded. -/
theorem LeafConsistencyData.insertLeaf_new {leafCount : Nat} {leaf : LeafNode}
    (indexed : 0 < leaf.leafIndex ∧ leaf.leafIndex ≤ leafCount) :
    (LeafConsistencyData.new leafCount).insertLeaf leaf =
      .ok ⟨leafCount, 1, [leaf.leafIndex - 1]⟩ := by
  simp [LeafConsistencyData.insertLeaf, LeafConsistencyData.new,
    Nat.pos_iff_ne_zero.mp indexed.1, Nat.not_lt.mpr indexed.2]
  rfl

/-- The moved leaf passes its own checks and hashes at level 4. -/
theorem MerkleTree.validateNode_movedLeaf {DB : Type} [Database DB] (tree : MerkleTree DB)
    (fuel : Nat) {version leafCount : Nat} {leaf : LeafNode}
    (indexed : 0 < leaf.leafIndex ∧ leaf.leafIndex ≤ leafCount) :
    tree.validateNode (fuel + 1) (.leaf leaf) ⟨version, Nibbles.new leaf.fullKey 1⟩
        (some (LeafConsistencyData.new leafCount)) =
      .ok (leaf.hash tree.hasher 4, some ⟨leafCount, 1, [leaf.leafIndex - 1]⟩) := by
  rw [MerkleTree.validateNode]
  simp [LeafConsistencyData.insertLeaf_new indexed, Node.hash]

/-- `verify_consistency` of a version whose root is the internal node over a moved leaf: the
root and the leaf pass their own checks, and the reference's blank hash is compared with the
leaf's hash. -/
theorem MerkleTree.verifyConsistency_rootOverLeaf (tree : MerkleTree PatchSet)
    {version leafCount : Nat} {positive : 0 < leafCount} {leaf : LeafNode}
    (versions : version < tree.db.manifest.versionCount)
    (stored : tree.db.tryRoot version =
      some (.filled leafCount positive (.internal (rootOverLeaf leaf version))))
    (moved : tree.db.tryTreeNode ⟨version, Nibbles.new leaf.fullKey 1⟩ true = some (.leaf leaf))
    (indexed : 0 < leaf.leafIndex ∧ leaf.leafIndex ≤ leafCount)
    (nonzero : leaf.hash tree.hasher 4 ≠ 0) :
    tree.verifyConsistency version true = .error (.hashMismatch (EMPTY.withVersion version)
      (nibble leaf.fullKey 0) 0 (leaf.hash tree.hasher 4)) := by
  unfold MerkleTree.verifyConsistency
  simp only [Database.tryManifest, PatchSet.tryManifest, Database.tryRoot, stored, KEY_SIZE]
  -- one step of the walk at the root; the leaf below is `validateNode_movedLeaf`
  rw [MerkleTree.validateNode]
  simp [Nat.not_le.mpr versions, childRefs_rootOverLeaf, children'_rootOverLeaf, EMPTY_push,
    Database.tryTreeNode, moved, Nibbles.withVersion, NodeKey.isEmpty, ChildRef.leaf,
    MerkleTree.validateNode_movedLeaf _ _ indexed]
  simp only [bind, Except.bind]
  rw [if_neg (show ¬ leaf.hash tree.hasher 4 = 0#256 from nonzero)]
  rfl

/-! ### The run from the empty tree -/

/-- A hasher whose leaves hash to 1 and whose branches combine by bitwise or, with blank empty
subtrees; under it, every leaf hashes to 1 at every level. -/
def orHasher : HashTree where
  name := "or"
  hashLeaf _ _ := 1
  hashBranch lhs rhs := lhs ||| rhs
  emptySubtreeHash _ := 0
  emptySubtreeHash_succ _ := by simp

/-- Hashes rendered as their numbers in decimal. -/
def decimalFormat : HashFormat := ⟨fun hash => toString hash.toNat, fun hash => toString hash.toNat⟩

theorem LeafNode.hash_orHasher (leaf : LeafNode) (level : Nat) : leaf.hash orHasher level = 1 := by
  unfold LeafNode.hash
  apply List.foldl_fixed'
  intro depth
  by_cases bit : leaf.fullKey.bit depth <;> simp [bit, orHasher]

/-- The first block of one entry (index 1, as a new key gets), then an empty block with proofs:
`verify_consistency` of the new version finds the blank hash in the root's reference to the moved
leaf. -/
theorem verifyConsistency_after_extendWithProofs_nil (H : HashTree) (entry : TreeEntry)
    (index : entry.leafIndex = 1) (nonzero : (LeafNode.new entry).hash H 4 ≠ 0) :
    ((⟨default, H⟩ : MerkleTree PatchSet).extend [entry] >>= fun first =>
        first.2.extendWithProofs []).map (fun second => second.2.verifyConsistency 1 true) =
      .ok (.error (.hashMismatch (EMPTY.withVersion 1) (nibble entry.key 0) 0
        ((LeafNode.new entry).hash H 4))) := by
  obtain ⟨db, first, wrote⟩ := MerkleTree.extend_single_default H entry
  obtain ⟨db', second, wrote'⟩ :=
    MerkleTree.extendWithProofs_nil_leafRoot ⟨db, H⟩ (v := 0) wrote.versionCount wrote.tryRoot_self
  have moved : db'.tryTreeNode ⟨1, Nibbles.new entry.key 1⟩ true = some (.leaf (LeafNode.new entry)) := by
    rw [wrote'.nodes _ _ rfl]
    simp [HashMap.lookup_singleton, Node.clone, LeafNode.new]
  have indexed : 0 < (LeafNode.new entry).leafIndex ∧ (LeafNode.new entry).leafIndex ≤ 1 := by
    simp [LeafNode.new, index]
  have failed := MerkleTree.verifyConsistency_rootOverLeaf ⟨db', H⟩
    (by simp [wrote'.versionCount]) wrote'.tryRoot_self moved indexed nonzero
  rw [first]
  simp only [bind, Except.bind, second, Except.map]
  rw [failed]
  rfl

theorem verifyConsistency_after_extendWithProofs_nil_orHasher :
    (⟨0, 1, 1⟩ : TreeEntry).leafIndex = 1 ∧ (LeafNode.new ⟨0, 1, 1⟩).hash orHasher 4 ≠ 0 ∧
    ((⟨default, orHasher⟩ : MerkleTree PatchSet).extend [⟨0, 1, 1⟩] >>= fun first =>
        first.2.extendWithProofs []).map (fun second => second.2.verifyConsistency 1 true) =
      .ok (.error (.hashMismatch (EMPTY.withVersion 1) (nibble 0 0) 0
        ((LeafNode.new ⟨0, 1, 1⟩).hash orHasher 4))) :=
  ⟨rfl, by rw [LeafNode.hash_orHasher]; decide,
    verifyConsistency_after_extendWithProofs_nil orHasher ⟨0, 1, 1⟩ rfl
      (by rw [LeafNode.hash_orHasher]; decide)⟩

/-- After the first block of one entry, `extend` and `extend_with_proofs` of the same empty block
store different roots for the new version: the leaf itself, and an internal node over it. -/
theorem extend_extendWithProofs_nil_roots (H : HashTree) (entry : TreeEntry) :
    ((⟨default, H⟩ : MerkleTree PatchSet).extend [entry] >>= fun first =>
        first.2.extend []).map (fun second => second.2.db.tryRoot 1) =
      .ok (some (.filled 1 Nat.one_pos (.leaf (LeafNode.new entry)))) ∧
    ((⟨default, H⟩ : MerkleTree PatchSet).extend [entry] >>= fun first =>
        first.2.extendWithProofs []).map (fun second => second.2.db.tryRoot 1) =
      .ok (some (.filled 1 Nat.one_pos (.internal (rootOverLeaf (LeafNode.new entry) 1)))) := by
  obtain ⟨db, first, wrote⟩ := MerkleTree.extend_single_default H entry
  obtain ⟨_, plain, plainWrote⟩ :=
    MerkleTree.extend_nil_leafRoot ⟨db, H⟩ (v := 0) wrote.versionCount wrote.tryRoot_self
  obtain ⟨_, proved, provedWrote⟩ :=
    MerkleTree.extendWithProofs_nil_leafRoot ⟨db, H⟩ (v := 0) wrote.versionCount wrote.tryRoot_self
  rw [first]
  constructor
  · simp only [bind, Except.bind, plain, Except.map]
    rw [plainWrote.tryRoot_self]
    rfl
  · simp only [bind, Except.bind, proved, Except.map]
    rw [provedWrote.tryRoot_self]
    rfl

/-- The first block of one entry, then a block that reads that entry with proofs: the read log
carries the hash of the internal root with a blank reference, so `verify_proofs` against the root
hash before the block fails at its first check of the read, once the two hashes differ. -/
theorem verifyProofs_read_after_extend_single (H : HashTree) (format : HashFormat) (entry : TreeEntry)
    (differ : (rootOverLeaf (LeafNode.new entry) 1).hash H 0 ≠ (LeafNode.new entry).hash H 0) :
    ((⟨default, H⟩ : MerkleTree PatchSet).extend [entry] >>= fun first =>
        (first.2.extendWithProofs [.read entry.key]).map fun second =>
          second.1.verifyProofs H format first.2.latestRootHash [.read entry.key]) =
      .ok (.error (format.mismatch "`op.root_hash == root_hash`"
        ((rootOverLeaf (LeafNode.new entry) 1).hash H 0) ((LeafNode.new entry).hash H 0))) := by
  obtain ⟨db, first, wrote⟩ := MerkleTree.extend_single_default H entry
  obtain ⟨path, _, second, length⟩ :=
    MerkleTree.extendWithProofs_read_leafRoot ⟨db, H⟩ (v := 0) wrote.versionCount wrote.tryRoot_self
  have latest : (⟨db, H⟩ : MerkleTree PatchSet).latestRootHash = (LeafNode.new entry).hash H 0 := by
    simp [MerkleTree.latestRootHash, MerkleTree.latestVersion, MerkleTree.rootHash,
      Database.tryManifest, PatchSet.tryManifest, wrote.versionCount, Database.tryRoot,
      wrote.tryRoot_self, Root.hash, Root.clone, Node.clone, Node.hash]
  have short : path.length ≤ TREE_DEPTH := by unfold TREE_DEPTH KEY_SIZE; omega
  have key : (LeafNode.new entry).fullKey = entry.key := rfl
  rw [key, Nat.zero_add] at second
  rw [first]
  simp only [bind, Except.bind, second]
  simp [Except.map, latest, BlockOutputWithProofs.verifyProofs, verifyOperations, ensure, short,
    differ]
  rfl

theorem verifyProofs_read_after_extend_single_orHasher :
    (rootOverLeaf (LeafNode.new ⟨0, 1, 1⟩) 1).hash orHasher 0 ≠
        (LeafNode.new ⟨0, 1, 1⟩).hash orHasher 0 ∧
    ((⟨default, orHasher⟩ : MerkleTree PatchSet).extend [⟨0, 1, 1⟩] >>= fun first =>
        (first.2.extendWithProofs [.read 0]).map fun second =>
          second.1.verifyProofs orHasher decimalFormat first.2.latestRootHash [.read 0]) =
      .ok (.error (decimalFormat.mismatch "`op.root_hash == root_hash`"
        ((rootOverLeaf (LeafNode.new ⟨0, 1, 1⟩) 1).hash orHasher 0)
        ((LeafNode.new ⟨0, 1, 1⟩).hash orHasher 0))) :=
  have differ : (rootOverLeaf (LeafNode.new ⟨0, 1, 1⟩) 1).hash orHasher 0 ≠
      (LeafNode.new ⟨0, 1, 1⟩).hash orHasher 0 := by
    rw [LeafNode.hash_orHasher]
    decide
  ⟨differ, verifyProofs_read_after_extend_single orHasher decimalFormat ⟨0, 1, 1⟩ differ⟩

end ZksyncEra.MerkleTree
