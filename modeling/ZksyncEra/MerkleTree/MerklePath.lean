import ZksyncEra.MerkleTree.Hasher

/-!
Merkle proofs of the full operation mode (`hasher/nodes.rs`, `hasher/mod.rs`,
`hasher/proofs.rs`).

A Merkle path is collected bottom-up: from the level of the proved leaf, one sibling hash per
level, where empty subtrees at the bottom of the path are skipped. An internal node keeps a cache
of the inner levels of its 4-level binary subtree, so that one child hash changes only the four
hashes on its way to the node hash (`update_nibble`), and the siblings on that way give four
hashes of the path (`extend_merkle_path`). The verifier folds a path back up with the entry,
filling the skipped bottom levels with empty subtree hashes, and checks each log of a block
against the root hash before it.

`ensure!` failures carry the source's message: the condition text, and for a comparison of hashes
the two hashes as the `fixed-hash` crate's `Debug` renders them, which is a parameter.
-/

namespace ZksyncEra.MerkleTree

/-- `MerklePath`: the hashes collected so far, and the level of the next one. -/
structure MerklePath where
  currentLevel : Nat
  hashes : List ValueHash
  deriving DecidableEq, Repr

namespace MerklePath

def new (level : Nat) : MerklePath := ⟨level, []⟩

/-- `MerklePath::push`: `None` is an empty subtree, which is skipped while nothing is collected.
Every caller pushes at most `current_level` hashes, so the level never goes below zero. -/
def push (H : HashTree) (self : MerklePath) (maybeHash : Option ValueHash) : MerklePath :=
  let hashes := match maybeHash with
    | some hash => self.hashes ++ [hash]
    | none =>
      if self.hashes.isEmpty then self.hashes
      else self.hashes ++ [H.emptySubtreeHash (TREE_DEPTH - self.currentLevel)]
  ⟨self.currentLevel - 1, hashes⟩

/-- `MerklePath::into_inner`; `current_level == 0` is only debug-asserted. -/
def intoInner (self : MerklePath) : List ValueHash := self.hashes

end MerklePath

/-- `slice[index] = value`, which panics out of bounds. -/
def setSlot {n : Nat} (hashes : Vector (Option ValueHash) n) (index : Nat)
    (value : Option ValueHash) : Option (Vector (Option ValueHash) n) :=
  if h : index < n then some (hashes.set index value h) else none

namespace InternalNodeCache

/-- One round of `update_nibble`: the optional branch over the pair of `levelHashes` that holds
`idx`, for the level `levelInTree` below the tip of a node at `level`. -/
def updateRound (H : HashTree) (level levelInTree : Nat) (levelHashes : List (Option ValueHash))
    (idx : Nat) : Option (Option ValueHash) := do
  -- Depth of a potential empty subtree rooted at the current level.
  let subtreeDepth := TREE_DEPTH - (level + levelInTree)
  let leftIdx := idx - idx % 2
  let rightIdx := leftIdx + 1
  let left ← levelHashes[leftIdx]?
  let right ← levelHashes[rightIdx]?
  pure (H.hashOptionalBranch subtreeDepth left right)

/-- `InternalNodeCache::update_nibble`: the hashes on the way from child `nibble` to the node,
each level read after the level below it was updated. -/
def updateNibble (H : HashTree) (self : InternalNodeCache)
    (levelHashes : Vector (Option ValueHash) 16) (level : Nat) (nibble : UInt8) :
    Option (ValueHash × InternalNodeCache) := do
  let idx := nibble.toNat
  let hash3 ← updateRound H level 4 levelHashes.toList idx
  let level3 ← setSlot self.level3 (idx / 2) hash3
  let hash2 ← updateRound H level 3 level3.toList (idx / 2)
  let level2 ← setSlot self.level2 (idx / 4) hash2
  let hash1 ← updateRound H level 2 level2.toList (idx / 4)
  let level1 ← setSlot self.level1 (idx / 8) hash1
  let hash0 ← updateRound H level 1 level1.toList (idx / 8)
  let nodeHash ← setSlot (Vector.replicate 1 none) (idx / 16) hash0
  -- `node_hash.unwrap()`: a node with a child has a hash.
  let nodeHash ← nodeHash[0]
  pure (nodeHash, ⟨level1, level2, level3⟩)

/-- `InternalNodeCache::extend_merkle_path`: the siblings of the way from child `nibble` to the
node, inner levels only. -/
def extendMerklePath (H : HashTree) (self : InternalNodeCache) (merklePath : MerklePath)
    (nibble : UInt8) : Option MerklePath := do
  let idx := nibble.toNat / 2
  let merklePath := merklePath.push H (← self.level3[idx ^^^ 1]?)
  let idx := idx / 2
  let merklePath := merklePath.push H (← self.level2[idx ^^^ 1]?)
  let idx := idx / 2
  pure (merklePath.push H (← self.level1[idx ^^^ 1]?))

end InternalNodeCache

namespace InternalNode

/-- `hash_inner` into a fresh `Box::default()` cache: the node hash and the filled cache. -/
def hashWithCache (H : HashTree) (self : InternalNode) (level : Nat) :
    ValueHash × InternalNodeCache :=
  let (nodeHash, cache) := hashInner H self.childHashes level (some InternalNodeCache.default)
  (nodeHash, cache.getD InternalNodeCache.default)

/-- `InternalNodeUpdater::ensure_child_ref`. -/
def ensureChildRef (self : InternalNode) (nibble : UInt8) (version : Nat) (isLeaf : Bool) :
    InternalNode :=
  match self.childRef nibble with
  | some childRef => self.insertChildRef nibble { childRef with version := version, isLeaf := isLeaf }
  | none =>
    self.insertChildRef nibble (if isLeaf then ChildRef.leaf version else ChildRef.internal version)

/-- `InternalNodeUpdater::update_child_hash`: sets the hash of child `nibble` of a node at
`level` and returns the new node hash, through the cache if there is one. -/
def updateChildHash (H : HashTree) (self : InternalNode) (level : Nat) (nibble : UInt8)
    (childHash : ValueHash) : Option (ValueHash × InternalNode) := do
  let self ← self.updateChildRef nibble fun childRef => { childRef with hash := childHash }
  let childHashes := self.childHashes
  match self.cache with
  | some cache =>
    let (nodeHash, cache) ← cache.updateNibble H childHashes level nibble
    pure (nodeHash, { self with cache := some cache })
  | none =>
    let (nodeHash, cache) := self.hashWithCache H level
    pure (nodeHash, { self with cache := some cache })

/-- `InternalNodeUpdater::extend_merkle_path`: the sibling child, then the cached inner levels
(filling the cache if there is none). -/
def extendMerklePath (H : HashTree) (self : InternalNode) (level : Nat) (nibble : UInt8)
    (merklePath : MerklePath) : Option (MerklePath × InternalNode) := do
  let adjacentHash := (self.childRef (nibble ^^^ 1)).map (·.hash)
  let merklePath := merklePath.push H adjacentHash
  let (cache, self) := match self.cache with
    | some cache => (cache, self)
    | none =>
      let cache := (self.hashWithCache H level).2
      (cache, { self with cache := some cache })
  let merklePath ← cache.extendMerklePath H merklePath nibble
  pure (merklePath, self)

end InternalNode

/-! ### Logs with proofs -/

/-- `TreeEntry::empty`: the entry of a missing key. -/
def TreeEntry.empty (key : Key) : TreeEntry := ⟨key, 0, 0⟩

def TreeLogEntry.isRead : TreeLogEntry → Bool
  | .read .. | .readMissingKey => true
  | _ => false

/-- `TreeLogEntryWithProof`: a log with the Merkle path of its key and the root hash after it. -/
structure TreeLogEntryWithProof (P : Type) where
  base : TreeLogEntry
  merklePath : P
  rootHash : ValueHash
  deriving DecidableEq, Repr

/-- `BlockOutputWithProofs`. -/
structure BlockOutputWithProofs where
  logs : List (TreeLogEntryWithProof (List ValueHash))
  leafCount : Nat
  deriving DecidableEq, Repr

/-- The root hash after the last log, if there is one. -/
def BlockOutputWithProofs.rootHash (self : BlockOutputWithProofs) : Option ValueHash :=
  self.logs.getLast?.map (·.rootHash)

/-! ### Verification -/

namespace HashTree

variable (H : HashTree)

/-- `extend_merkle_path`: the skipped bottom levels as empty subtrees, then the path. The callers
check `path.len() <= TREE_DEPTH` first. -/
def extendMerklePath (path : List ValueHash) : List ValueHash :=
  let emptyHashCount := TREE_DEPTH - path.length
  (List.range emptyHashCount).map H.emptySubtreeHash ++ path

/-- `fold_merkle_path`: the root hash of a tree with `entry` and the given path. -/
def foldMerklePath (path : List ValueHash) (entry : TreeEntry) : ValueHash :=
  (H.extendMerklePath path).zipIdx.foldl
    (fun hash (adjacentHash, depth) =>
      if entry.key.bit depth then H.hashBranch adjacentHash hash else H.hashBranch hash adjacentHash)
    (H.hashLeaf entry.value entry.leafIndex)

end HashTree

/-- `ensure!`. -/
def ensure (condition : Bool) (message : String) : Except String Unit :=
  if condition then pure () else throw message

/-- How a message renders an `H256`: `{:?}` (`Debug`) and `{}` (`Display`), as the third-party
`fixed-hash` crate implements them. -/
structure HashFormat where
  debug : ValueHash → String
  display : ValueHash → String

/-- The message of `ensure!(lhs == rhs, "Condition failed: `lhs == rhs` ({:?} vs {:?})", ..)`. -/
def HashFormat.mismatch (format : HashFormat) (condition : String) (lhs rhs : ValueHash) : String :=
  "Condition failed: " ++ condition ++ " (" ++ format.debug lhs ++ " vs " ++ format.debug rhs ++ ")"

/-- The loop of `verify_proofs` from the root hash before `op`. -/
def verifyOperations (H : HashTree) (format : HashFormat) :
    ValueHash → List (TreeLogEntryWithProof (List ValueHash) × TreeInstruction) → Except String Unit
  | _, [] => pure ()
  | rootHash, (op, instruction) :: rest => do
    ensure (op.merklePath.length ≤ TREE_DEPTH) "Condition failed: `op.merkle_path.len() <= TREE_DEPTH`"
    match instruction with
    | .read _ =>
      ensure (op.rootHash == rootHash)
        (format.mismatch "`op.root_hash == root_hash`" op.rootHash rootHash)
      ensure op.base.isRead "Condition failed: `op.base.is_read()`"
    | .write _ => ensure (!op.base.isRead) "Condition failed: `!op.base.is_read()`"
    let prevEntry : TreeEntry := match op.base with
      | .inserted | .readMissingKey => TreeEntry.empty instruction.key
      | .updated leafIndex value | .read leafIndex value => ⟨instruction.key, value, leafIndex⟩
    let prevHash := H.foldMerklePath op.merklePath prevEntry
    ensure (prevHash == rootHash) (format.mismatch "`prev_hash == root_hash`" prevHash rootHash)
    if let .write newEntry := instruction then
      let nextHash := H.foldMerklePath op.merklePath newEntry
      ensure (nextHash == op.rootHash)
        (format.mismatch "`next_hash == op.root_hash`" nextHash op.rootHash)
    verifyOperations H format op.rootHash rest

/-- `BlockOutputWithProofs::verify_proofs` against the trusted old root hash. -/
def BlockOutputWithProofs.verifyProofs (self : BlockOutputWithProofs) (H : HashTree)
    (format : HashFormat) (oldRootHash : ValueHash) (instructions : List TreeInstruction) :
    Except String Unit := do
  ensure (instructions.length == self.logs.length)
    "Condition failed: `instructions.len() == self.logs.len()`"
  verifyOperations H format oldRootHash (self.logs.zip instructions)

end ZksyncEra.MerkleTree
