import ZksyncEra.MerkleTree.Storage
import ZksyncEra.MerkleTree.MerklePath

/-!
The full operation mode (`storage/proofs.rs`, with its helpers in `storage/patch.rs` and
`utils.rs`): `extend_with_proofs` returns a Merkle proof with every log.

The instructions are split by the first nibble of their key into 16 groups, each applied to its
own part of the working patch set with the subtree at level 4 as its root: writes update the
hashes on their path through the node caches at once, reads build a proof. The parts are merged
back, and the root node is rebuilt from the subtree root hashes in the order of the
instructions, which also gives the top 4 hashes of every path. For this the root is made an
internal node first. The patch set is then finalized without hashing.

Panics (`unwrap`, `unreachable!`, out-of-bounds indexing, failed asserts) are `none`; the
parallel iteration over the parts is sequential here, in part order. Metrics are left out; the
`new_leaves` metric is the number of `Inserted` logs.
-/

set_option linter.dupNamespace false

namespace ZksyncEra.MerkleTree

/-- Number of subtrees used for parallel computations. -/
def SUBTREE_COUNT : Nat := 16

/-- 0-based tree level at which subtree roots are located. -/
def SUBTREE_ROOT_LEVEL : Nat := 4

/-- `u8::try_from(value).unwrap()`. -/
def u8TryFrom (value : Nat) : Option UInt8 :=
  if value < 256 then some value.toUInt8 else none

/-- `Nibbles::single`; `nibble < 16` is asserted. -/
def Nibbles.single (nibble : UInt8) : Option Nibbles :=
  if nibble < 16 then some ⟨1, (Vector.replicate 32 0).set 0 (nibble <<< 4) zero_lt_nibblesBytes⟩ else none

/-- `U256::leading_zeros`. -/
def U256.leadingZeros (value : U256) : Nat :=
  if value.toNat = 0 then TREE_DEPTH else TREE_DEPTH - 1 - value.toNat.log2

/-- `find_diverging_bit`: the number of leading bits the keys share. -/
def findDivergingBit (lhs rhs : Key) : Nat :=
  (lhs ^^^ rhs).leadingZeros

/-- `HashMap` values mapped in place. -/
def HashMap.mapValues {K V W : Type} (f : V → W) (m : HashMap K V) : HashMap K W :=
  ⟨m.entries.map fun entry => ⟨entry.1, f entry.2⟩, by
    have nodup := m.nodupKeys
    unfold List.NodupKeys List.keys at *
    simpa [Function.comp_def] using nodup⟩

/-- `Clone` for working nodes. -/
def WorkingNode.clone (self : WorkingNode) : WorkingNode :=
  { self with inner := self.inner.clone }

/-! ### Merging items ordered by index -/

/-- `Iterator::min_by_key`: the first element with the least key. -/
def minByKey? {α : Type} (key : α → Nat) : List α → Option α
  | [] => none
  | x :: xs => some (xs.foldl (fun best y => if key y < key best then y else best) x)

/-- `MergingIter::next`: the next item of the part whose next index is least, with the index of
that part. -/
def MergingIter.next {T : Type} (iterators : List (List (Nat × T))) :
    Option ((Nat × T) × List (List (Nat × T))) := do
  let items := iterators.zipIdx.filterMap fun (it, iterIdx) => it.head?.map fun next => (iterIdx, next)
  let (minIterIdx, _) ← minByKey? (fun item => item.2.1) items
  match iterators[minIterIdx]? with
  | some ((_, item) :: rest) => some ((minIterIdx, item), iterators.set minIterIdx rest)
  | _ => none

/-- Collecting a `MergingIter`; `next` gives `None` after `total_len` items. -/
def mergingIter {T : Type} : (fuel : Nat) → List (List (Nat × T)) → List (Nat × T)
  | 0, _ => []
  | fuel + 1, iterators =>
    match MergingIter.next iterators with
    | none => []
    | some (item, iterators) => item :: mergingIter fuel iterators

/-- `merge_by_index`: parts ordered by item index merged into one list ordered by item index,
each item with the index of its part. -/
def mergeByIndex {T : Type} (parts : List (List (Nat × T))) : List (Nat × T) :=
  let totalLen := (parts.map List.length).sum
  mergingIter totalLen parts

/-! ### Working patch set -/

namespace WorkingPatchSet

/-- `ensure_internal_root_node`: a root leaf moves one level down under a new internal root whose
reference to it has a blank hash. Returns a copy of the root node. -/
def ensureInternalRootNode (self : WorkingPatchSet) : InternalNode × WorkingPatchSet :=
  match self.get Nibbles.EMPTY with
  | some (.internal node) => (node.clone, self)
  | some (.leaf leaf) =>
    let firstNibble := Nibbles.nibble leaf.fullKey 0
    let internalNode :=
      InternalNode.empty.insertChildRef firstNibble (ChildRef.leaf self.rootVersion)
    let self := self.insert Nibbles.EMPTY (.internal internalNode.clone)
    let self := self.insert (Nibbles.new leaf.fullKey 1) (.leaf leaf)
    (internalNode, self)
  | none =>
    let internalNode := InternalNode.empty
    (internalNode, self.insert Nibbles.EMPTY (.internal internalNode.clone))

/-- `split`: the root level is copied (cloned) into every part; every other node goes to the part
of its first nibble. -/
def split (self : WorkingPatchSet) : List WorkingPatchSet :=
  (List.range SUBTREE_COUNT).map fun part =>
    { rootVersion := self.rootVersion
      changesByNibbleCount := self.changesByNibbleCount.zipIdx.map fun (level, nibbleCount) =>
        if nibbleCount = 0 then level.mapValues WorkingNode.clone
        else level.retain fun nibbles _ =>
          (GetElem.getElem nibbles 0 zero_lt_nibblesBytes >>> 4).toNat == part }

/-- `merge`: the levels of `other` below the root are added to those of `self`. -/
def merge (self other : WorkingPatchSet) : WorkingPatchSet :=
  let otherLen := other.changesByNibbleCount.length
  let levels :=
    if self.changesByNibbleCount.length < otherLen then
      self.changesByNibbleCount ++ List.replicate (otherLen - self.changesByNibbleCount.length) ∅
    else self.changesByNibbleCount
  let levels := levels.zipIdx.map fun (targetLevel, i) =>
    match other.changesByNibbleCount[i]? with
    -- Do not overwrite the root node; it needs to be dealt with separately anyway.
    | some srcLevel => if i = 0 then targetLevel else targetLevel.extend srcLevel
    | none => targetLevel
  { self with changesByNibbleCount := levels }

/-- `take_root`. -/
def takeRoot (self : WorkingPatchSet) : Option Node × WorkingPatchSet :=
  match self.changesByNibbleCount with
  | [] => (none, self)
  | rootLevel :: rest =>
    match rootLevel.lookup Nibbles.EMPTY.bytes with
    | none => (none, self)
    | some node =>
      (some node.inner,
        { self with changesByNibbleCount := rootLevel.erase Nibbles.EMPTY.bytes :: rest })

/-- A change of the internal node at `key` through `get_mut` that also computes a value; `none`
if there is no internal node there or the change fails. -/
def modifyInternal {α : Type} (self : WorkingPatchSet) (key : Nibbles)
    (f : InternalNode → Option (α × InternalNode)) : Option (α × WorkingPatchSet) := do
  let level ← self.changesByNibbleCount[key.nibbleCount]?
  let node ← level.lookup key.bytes
  let .internal parent := node.inner | none
  let (value, parent) ← f parent
  pure (value, { self with
    changesByNibbleCount := self.changesByNibbleCount.set key.nibbleCount
      (level.insert key.bytes { node with inner := .internal parent }) })

/-- The `while let` loop of `create_proof`: the path is extended through the ancestors of
`nibbles` down to `root_nibble_count`; `fuel` is the nibble count of `nibbles`. -/
def proofPathUp (H : HashTree) (rootNibbleCount : Nat) :
    (fuel : Nat) → Nibbles → MerklePath → WorkingPatchSet → Option (MerklePath × WorkingPatchSet)
  | 0, _, merklePath, self => some (merklePath, self)
  | fuel + 1, nibbles, merklePath, self =>
    match nibbles.splitLast with
    | none => some (merklePath, self)
    | some (parentNibbles, lastNibble) =>
      if parentNibbles.nibbleCount < rootNibbleCount then some (merklePath, self)
      else do
        let parentLevel := parentNibbles.nibbleCount * 4
        let (merklePath, self) ← self.modifyInternal parentNibbles fun parent =>
          parent.extendMerklePath H parentLevel lastNibble merklePath
        proofPathUp H rootNibbleCount fuel parentNibbles merklePath self

/-- `create_proof`: the leaf of `key`, if present, and the Merkle path of `key` up to the level
of `root_nibble_count` nibbles. A mismatched leaf lies in the subtree of `key`, so the path
starts at the level where the two keys diverge, with the leaf's hash there. -/
def createProof (H : HashTree) (self : WorkingPatchSet) (key : Key) (parentNibbles : Nibbles)
    (rootNibbleCount : Nat) : Option ((Option LeafNode × MerklePath) × WorkingPatchSet) := do
  let traverseOutcome ← self.traverse key parentNibbles
  let merklePath := match traverseOutcome with
    | .missingChild _ | .leafMatch .. => none
    | .leafMismatch nibbles leaf =>
      -- The keys differ at bit `find_diverging_bit`, i.e. at level one below it.
      let divergingLevel := findDivergingBit key leaf.fullKey + 1
      let nibbleCount := nibbles.nibbleCount
      let path := MerklePath.new divergingLevel
      let adjacentHash := leaf.hash H divergingLevel
      let path := path.push H (some adjacentHash)
      -- Fill the path with empty hashes until we've reached the leaf level.
      let path := (List.range' (4 * nibbleCount + 1) (divergingLevel - (4 * nibbleCount + 1))).foldl
        (fun (path : MerklePath) _ => path.push H none) path
      some path
  let nibbles := traverseOutcome.position
  let leafLevel := nibbles.nibbleCount * 4
  let merklePath := merklePath.getD (MerklePath.new leafLevel)
  let (merklePath, self) ← proofPathUp H rootNibbleCount nibbles.nibbleCount nibbles merklePath self
  let leaf := match traverseOutcome with
    | .leafMatch _ leaf => some leaf
    | _ => none
  pure ((leaf, merklePath), self)

end WorkingPatchSet

/-! ### Updates with proofs -/

/-- `InstructionWithPrecomputes`: an instruction with its index in the block and the nibbles of
its parent node found by `load_ancestors`. -/
structure InstructionWithPrecomputes where
  index : Nat
  instruction : TreeInstruction
  parentNibbles : Nibbles

/-- `InstructionWithPrecomputes::split`: the instructions grouped by the first nibble of their
key, each group in block order. -/
def InstructionWithPrecomputes.split (instructions : List TreeInstruction)
    (parentNibbles : List Nibbles) : List (List InstructionWithPrecomputes) :=
  let it := (instructions.zip parentNibbles).zipIdx
  (List.range SUBTREE_COUNT).map fun part =>
    (it.filter fun ((instruction, _), _) => (Nibbles.nibble instruction.key 0).toNat == part).map
      fun ((instruction, parentNibbles), index) => ⟨index, instruction, parentNibbles⟩

namespace TreeUpdater

/-- The `while let` loop of `update_node_hashes`: the new hash of each ancestor of `nibbles`
below the subtree root, through the node caches, with the path extended on the way. -/
def hashPathUp (H : HashTree) : (fuel : Nat) → Nibbles → ValueHash → MerklePath →
    WorkingPatchSet → Option ((ValueHash × MerklePath) × WorkingPatchSet)
  | 0, _, nodeHash, merklePath, self => some ((nodeHash, merklePath), self)
  | fuel + 1, nibbles, nodeHash, merklePath, self =>
    match nibbles.splitLast with
    | none => some ((nodeHash, merklePath), self)
    | some (parentNibbles, lastNibble) =>
      if parentNibbles.nibbleCount = 0 then some ((nodeHash, merklePath), self)
      else do
        let parentLevel := parentNibbles.nibbleCount * 4
        let ((nodeHash, merklePath), self) ← self.modifyInternal parentNibbles fun parent => do
          let (nodeHash, parent) ← parent.updateChildHash H parentLevel lastNibble nodeHash
          let (merklePath, parent) ← parent.extendMerklePath H parentLevel lastNibble merklePath
          pure ((nodeHash, merklePath), parent)
        hashPathUp H fuel parentNibbles nodeHash merklePath self

/-- `update_node_hashes`: the new subtree root hash after inserting or updating a leaf, and the
path of the leaf up to the subtree root. A moved leaf's hash is written into its new parent,
which has just been created and so has no cache yet. -/
def updateNodeHashes (H : HashTree) (self : WorkingPatchSet) (leafData : NewLeafData) :
    Option ((ValueHash × MerklePath) × WorkingPatchSet) := do
  let self ← match leafData.adjacentLeaf with
    | some (nibbles, leaf) => do
      let (parentNibbles, lastNibble) ← nibbles.splitLast
      let leafLevel := nibbles.nibbleCount * 4
      let nodeHash := leaf.hash H leafLevel
      self.updateChildRef parentNibbles lastNibble fun childRef => { childRef with hash := nodeHash }
    | none => pure self
  let nibbles := leafData.nibbles
  let leafLevel := nibbles.nibbleCount * 4
  let nodeHash := leafData.leaf.hash H leafLevel
  let merklePath := MerklePath.new leafLevel
  hashPathUp H nibbles.nibbleCount nibbles nodeHash merklePath self

/-- `prove`: the read log of `key` with its path up to the subtree root. -/
def prove (H : HashTree) (self : WorkingPatchSet) (key : Key) (parentNibbles : Nibbles) :
    Option ((TreeLogEntry × MerklePath) × WorkingPatchSet) := do
  let ((leaf, merklePath), self) ←
    self.createProof H key parentNibbles (SUBTREE_ROOT_LEVEL / 4)
  let operation := match leaf with
    | none => TreeLogEntry.readMissingKey
    | some leaf => .read leaf.leafIndex leaf.valueHash
  pure ((operation, merklePath), self)

/-- The loop of `extend_precomputed` over the instructions of one subtree, with the subtree root
hash before the instruction. -/
def applyInstructions (H : HashTree) : List InstructionWithPrecomputes → ValueHash →
    WorkingPatchSet → Option (List (Nat × TreeLogEntryWithProof MerklePath) × WorkingPatchSet)
  | [], _, self => some ([], self)
  | ⟨index, instruction, parentNibbles⟩ :: rest, rootHash, self => do
    let (log, rootHash, self) ← match instruction with
      | .write entry => do
        let (log, leafData, self) ← insert self entry parentNibbles
        let ((newRootHash, merklePath), self) ← updateNodeHashes H self leafData
        pure ((⟨log, merklePath, newRootHash⟩ : TreeLogEntryWithProof MerklePath), newRootHash, self)
      | .read key => do
        let ((log, merklePath), self) ← prove H self key parentNibbles
        pure (⟨log, merklePath, rootHash⟩, rootHash, self)
    let (logs, self) ← applyInstructions H rest rootHash self
    pure ((index, log) :: logs, self)

/-- `extend_precomputed`: the instructions of the subtree `first_nibble`, with subtree paths and
subtree root hashes. -/
def extendPrecomputed (H : HashTree) (self : WorkingPatchSet) (firstNibble : UInt8)
    (instructions : List InstructionWithPrecomputes) :
    Option (List (Nat × TreeLogEntryWithProof MerklePath) × WorkingPatchSet) := do
  let rootNibbles ← Nibbles.single firstNibble
  let rootHash := match self.get rootNibbles with
    | some node => node.hash H SUBTREE_ROOT_LEVEL
    | none => H.emptySubtreeHash SUBTREE_ROOT_LEVEL
  applyInstructions H instructions rootHash self

/-- The `map` of `finalize_logs`: each log in block order updates the root's reference to its
subtree (writes only) and takes the top four hashes of its path from the root. -/
def finalizeLogEntries (H : HashTree) (version : Nat) (isLeafBySubtree : List Bool) :
    List (Nat × TreeLogEntryWithProof MerklePath) → InternalNode → ValueHash →
      Option (List (TreeLogEntryWithProof (List ValueHash)) × InternalNode)
  | [], root, _ => some ([], root)
  | (subtreeIdx, log) :: rest, root, rootHash => do
    let nibble ← u8TryFrom subtreeIdx
    let (rootHash, root) ←
      if !log.base.isRead then do
        let isLeaf ← isLeafBySubtree[subtreeIdx]?
        (root.ensureChildRef nibble version isLeaf).updateChildHash H 0 nibble log.rootHash
      else pure (rootHash, root)
    let (merklePath, root) ← root.extendMerklePath H 0 nibble log.merklePath
    let (logs, root) ← finalizeLogEntries H version isLeafBySubtree rest root rootHash
    pure (⟨log.base, merklePath.intoInner, rootHash⟩ :: logs, root)

/-- `finalize_logs`: completes the paths and root hashes of the logs from the root node, and
puts the root node back (an empty internal root is removed instead). -/
def finalizeLogs (H : HashTree) (self : WorkingPatchSet) (root : InternalNode)
    (logs : List (Nat × TreeLogEntryWithProof MerklePath)) :
    Option (List (TreeLogEntryWithProof (List ValueHash)) × WorkingPatchSet) := do
  let version := self.rootVersion
  let rootHash := root.hash H 0
  -- The kind of each subtree, for the correct `ChildRef.is_leaf` values in the root node.
  let isLeafBySubtree ← (List.range SUBTREE_COUNT).mapM fun subtreeIdx => do
    let nibble ← u8TryFrom subtreeIdx
    let child := self.get (← Nibbles.single nibble)
    pure (match child with
      | some (.leaf _) => true
      | _ => false)
  let (logs, root) ← finalizeLogEntries H version isLeafBySubtree logs root rootHash
  if root.childCount = 0 then
    -- An empty internal root node cannot be saved; without it the patch set is empty.
    pure (logs, self.takeRoot.2)
  else pure (logs, setRootNode self (.internal root))

end TreeUpdater

namespace Storage

variable {DB : Type} [Database DB]

/-- `finalize_with_proofs`; `newLeaves` is the updater's `new_leaves` metric. -/
def finalizeWithProofs (self : Storage DB) (root : InternalNode)
    (logs : List (Nat × TreeLogEntryWithProof MerklePath)) (newLeaves : Nat) :
    Option (BlockOutputWithProofs × PatchSet) := do
  let leafCount := self.leafCount + newLeaves
  let (logs, updater) ← TreeUpdater.finalizeLogs self.hasher self.updater root logs
  let patch ← updater.finalizeWithoutHashing self.manifest leafCount
  pure (⟨logs, leafCount⟩, patch)

/-- `Storage::extend_with_proofs`. -/
def extendWithProofs (self : Storage DB) (instructions : List TreeInstruction) :
    Option (BlockOutputWithProofs × PatchSet) := do
  let sortedKeys := SortedKeys.new (instructions.map TreeInstruction.key)
  let (parentNibbles, updater) ← self.updater.loadAncestors sortedKeys self.db
  let instructionParts := InstructionWithPrecomputes.split instructions parentNibbles
  let (initialRoot, updater) := updater.ensureInternalRootNode
  let storageParts := updater.split
  let parts ← ((storageParts.zip instructionParts).zipIdx).mapM fun ((storage, instructions), i) => do
    let firstNibble ← u8TryFrom i
    let (logs, storage) ← TreeUpdater.extendPrecomputed self.hasher storage firstNibble instructions
    pure (storage, logs)
  let (storageParts, logs) := parts.unzip
  -- `reduce(TreeUpdater::merge).unwrap()`
  let updater ← match storageParts with
    | [] => none
    | first :: rest => some (rest.foldl WorkingPatchSet.merge first)
  let logs := mergeByIndex logs
  let newLeaves := (logs.filter fun (_, log) => log.base == .inserted).length
  finalizeWithProofs { self with updater } initialRoot logs newLeaves

end Storage

namespace MerkleTree

variable {DB : Type} [Database DB]

/-- `extend_with_proofs`: creates the next version of the tree with a proof for every
instruction. A panic of the update is the error `unwrapFailed`. -/
def extendWithProofs (self : MerkleTree DB) (instructions : List TreeInstruction) :
    Except String (BlockOutputWithProofs × MerkleTree DB) := do
  let nextVersion := ((Database.tryManifest self.db).getD default).versionCount
  let storage := Storage.new self.db self.hasher nextVersion true
  let some (output, patch) := storage.extendWithProofs instructions | throw unwrapFailed
  let db ← Database.applyPatch self.db patch
  pure (output, { self with db })

end MerkleTree

end ZksyncEra.MerkleTree
