import ZksyncEra.Merkle.Levels

/-!
The in-memory Merkle tree of `mini_merkle_tree` (`lib.rs`), with the proof checkers of its
tests (`tests.rs`).

The `VecDeque` of untrimmed leaf hashes is a list, and `usize` values are natural numbers. The
hasher is abstract: a compression of two hashes and the hashes of empty subtrees, each the
compression of two empty subtrees one level lower, as the default `empty_subtree_hash` computes
them. A panic (an `assert!`, an index out of range, an `expect` or `unwrap` of `None`) is `none`.
The path that `compute_merkle_root_and_path` fills only when asked for is always computed here:
reading its entries cannot fail, and the callers that do not ask drop it.
-/

namespace ZksyncEra.MiniMerkle

/-- `MAX_TREE_DEPTH`. -/
def MAX_TREE_DEPTH : Nat := 32

/-- `HashEmptySubtree`, with the compression of the `Hasher` it extends. -/
structure HashEmptySubtree (H : Type) where
  compress : H → H → H
  emptySubtreeHash : Nat → H
  emptySubtreeHash_succ : ∀ depth,
    emptySubtreeHash (depth + 1) = compress (emptySubtreeHash depth) (emptySubtreeHash depth)

/-- `MiniMerkleTree`, without the hasher, which the operations take. -/
structure MiniMerkleTree (H : Type) where
  /-- The untrimmed leaves. -/
  hashes : List H
  binaryTreeSize : Nat
  /-- Index of the leftmost untrimmed leaf. -/
  startIndex : Nat
  /-- Left part of the path to the leaf at `startIndex`, from the bottom up. -/
  cache : List (Option H)

/-- `Side`. -/
inductive Side where
  | left
  | right
  deriving DecidableEq, Repr

/-- The trailing zero bits of `n`, at most `fuel` of them. -/
def trailingZerosFuel : Nat → Nat → Nat
  | 0, _ => 0
  | fuel + 1, n => if n ≠ 0 ∧ n % 2 = 0 then trailingZerosFuel fuel (n / 2) + 1 else 0

/-- `usize::trailing_zeros` of a non-zero value. -/
def trailingZeros (n : Nat) : Nat := trailingZerosFuel n n

/-- `tree_depth_by_size`. -/
def treeDepthBySize (treeSize : Nat) : Nat := trailingZeros treeSize

/-- `usize::is_power_of_two`. -/
def isPowerOfTwo (n : Nat) : Bool := n == 2 ^ trailingZeros n

/-- The first of `power`, `2 * power`, … at least `n`, doubling at most `fuel` times. -/
def powerAtLeast (n : Nat) : Nat → Nat → Nat
  | 0, power => power
  | fuel + 1, power => if n ≤ power then power else powerAtLeast n fuel (2 * power)

/-- `usize::next_power_of_two`. -/
def nextPowerOfTwo (n : Nat) : Nat := powerAtLeast n n 1

variable {H : Type}

/-- The size `from_hashes` gives a tree of `length` leaves: the next power of two, raised to
`min_tree_size`, which must be a power of two. -/
def initialTreeSize (length : Nat) (minTreeSize : Option Nat) : Option Nat :=
  match minTreeSize with
  | none => some (nextPowerOfTwo length)
  | some minTreeSize =>
    if isPowerOfTwo minTreeSize then some (max minTreeSize (nextPowerOfTwo length)) else none

/-- `MiniMerkleTree::from_hashes`. -/
def fromHashes (hashes : List H) (minTreeSize : Option Nat) : Option (MiniMerkleTree H) := do
  let binaryTreeSize ← initialTreeSize hashes.length minTreeSize
  let depth := treeDepthBySize binaryTreeSize
  if depth ≤ MAX_TREE_DEPTH then
    pure { hashes, binaryTreeSize, startIndex := 0, cache := List.replicate depth none }
  else none

/-- `MiniMerkleTree::length`: the number of leaves, trimmed ones included. -/
def MiniMerkleTree.length (self : MiniMerkleTree H) : Nat := self.startIndex + self.hashes.length

/-- `MiniMerkleTree::hashes_prefix`. -/
def MiniMerkleTree.hashesPrefix (self : MiniMerkleTree H) (length : Nat) : List H :=
  self.hashes.take length

/-- `MiniMerkleTree::push_hash`: a full tree doubles. -/
def MiniMerkleTree.pushHash (self : MiniMerkleTree H) (leafHash : H) : MiniMerkleTree H :=
  let hashes := self.hashes ++ [leafHash]
  if self.startIndex + hashes.length > self.binaryTreeSize then
    let binaryTreeSize := self.binaryTreeSize * 2
    let cache :=
      if self.cache.length < treeDepthBySize binaryTreeSize then self.cache ++ [none] else self.cache
    { self with hashes, binaryTreeSize, cache }
  else { self with hashes }

/-- The state of `compute_merkle_root_and_path` between levels. -/
structure Walk (H : Type) where
  hashes : List H
  index : Nat
  absoluteStartIndex : Nat
  path : List (Option H)

/-- The entry of the path at a level: the sibling of `index`, unless `side` leaves it out. -/
def pathEntry (side : Option Side) (hashes : List H) (index : Nat) : Option H :=
  match side with
  | some .left => if index % 2 = 0 then none else hashes[index ^^^ 1]?
  | some .right => if index % 2 = 1 then none else hashes[index ^^^ 1]?
  | none => hashes[index ^^^ 1]?

section Hasher

variable (hasher : HashEmptySubtree H)

/-- One level of `compute_merkle_root_and_path`. -/
def walkLevel (self : MiniMerkleTree H) (side : Option Side) (walk : Walk H) (level : Nat) :
    Option (Walk H) := do
  -- A first untrimmed node that is a right sibling gets its left sibling from the cache.
  let (hashes, index) ← if walk.absoluteStartIndex % 2 = 1 then do
      let sibling ← self.cache[level]?.join
      pure (sibling :: walk.hashes, walk.index + 1)
    else pure (walk.hashes, walk.index)
  -- The level starts at a left sibling; if it ends on one, the right sibling is empty.
  let hashes :=
    if hashes.length % 2 = 1 then hashes ++ [hasher.emptySubtreeHash level] else hashes
  let path := walk.path ++ [pathEntry side hashes index]
  let levelLen := hashes.length / 2
  let hashes ← Merkle.pairInPlace hasher.compress levelLen hashes
  pure { hashes := hashes.take levelLen, index := index / 2,
         absoluteStartIndex := walk.absoluteStartIndex / 2, path }

/-- `compute_merkle_root_and_path`: the root, and the path to the leaf at `index` (counted from
`startIndex`) of which `side` keeps one side. -/
def computeMerkleRootAndPath (self : MiniMerkleTree H) (index : Nat) (side : Option Side) :
    Option (H × List (Option H)) := do
  let depth := treeDepthBySize self.binaryTreeSize
  let walk ← (List.range depth).foldlM (walkLevel hasher self side)
    { hashes := self.hashes, index, absoluteStartIndex := self.startIndex, path := [] }
  let root ← walk.hashes[0]?
  pure (root, walk.path)

/-- `MiniMerkleTree::merkle_root`. -/
def MiniMerkleTree.merkleRoot (self : MiniMerkleTree H) : Option H :=
  if self.hashes.isEmpty then
    let depth := treeDepthBySize self.binaryTreeSize
    if self.startIndex = 0 then some (hasher.emptySubtreeHash depth)
    else if self.startIndex = self.binaryTreeSize then self.cache[depth]?.join
    else (computeMerkleRootAndPath hasher self 0 none).map Prod.fst
  else (computeMerkleRootAndPath hasher self 0 none).map Prod.fst

/-- `MiniMerkleTree::merkle_root_and_path`, for `index` counted from `startIndex`. -/
def MiniMerkleTree.merkleRootAndPath (self : MiniMerkleTree H) (index : Nat) :
    Option (H × List H) := do
  if ¬ index < self.hashes.length then none
  let (rootHash, endPath) ← computeMerkleRootAndPath hasher self index none
  let path ← endPath.mapM id
  pure (rootHash, path)

/-- `MiniMerkleTree::merkle_root_and_path_by_absolute_index`. -/
def MiniMerkleTree.merkleRootAndPathByAbsoluteIndex (self : MiniMerkleTree H) (index : Nat) :
    Option (H × List H) := do
  if ¬ index ≥ self.startIndex then none
  self.merkleRootAndPath hasher (index - self.startIndex)

/-- `MiniMerkleTree::merkle_root_and_paths_for_range(..rangeEnd)`. -/
def MiniMerkleTree.merkleRootAndPathsForRange (self : MiniMerkleTree H) (rangeEnd : Nat) :
    Option (H × List (Option H) × List (Option H)) := do
  if ¬ rangeEnd > 0 then none
  if ¬ rangeEnd ≤ self.hashes.length then none
  let (rootHash, rightPath) ← computeMerkleRootAndPath hasher self (rangeEnd - 1) (some .right)
  pure (rootHash, self.cache, rightPath)

/-- `MiniMerkleTree::trim_start`. -/
def MiniMerkleTree.trimStart (self : MiniMerkleTree H) (count : Nat) :
    Option (MiniMerkleTree H) := do
  if ¬ self.hashes.length ≥ count then none
  -- The cache is the left part of the path to the first untrimmed leaf.
  let (root, newCache) ← computeMerkleRootAndPath hasher self count (some .left)
  let hashes := self.hashes.drop count
  let startIndex := self.startIndex + count
  -- A tree trimmed whole grows on the next push, and then needs its root.
  let newCache := if startIndex = self.binaryTreeSize then newCache ++ [some root] else newCache
  pure { self with hashes, startIndex, cache := newCache }

end Hasher

/-! ### The checkers of the tests -/

/-- One step of `verify_merkle_proof`: the side of the hash is the parity of the index. -/
def foldMerkleStep (compress : H → H → H) (state : H × Nat) (pathItem : H) : H × Nat :=
  (if state.2 % 2 = 0 then compress state.1 pathItem else compress pathItem state.1, state.2 / 2)

/-- The hash that `verify_merkle_proof` compares with the root. -/
def foldMerklePath (compress : H → H → H) (leafHash : H) (index : Nat) (path : List H) : H :=
  (path.foldl (foldMerkleStep compress) (leafHash, index)).1

/-- One level of `verify_range_merkle_proof`. -/
def verifyRangeLevel (compress : H → H → H) (state : List H × Nat)
    (items : Option H × Option H) : Option (List H × Nat) := do
  let hashes ← if state.2 % 2 = 1 then do
      let startItem ← items.1
      pure (startItem :: state.1)
    else if items.1.isNone then pure state.1 else none
  let hashes ← if hashes.length % 2 = 1 then do
      let endItem ← items.2
      pure (hashes ++ [endItem])
    else if items.2.isNone then pure hashes else none
  let nextLevelLen := hashes.length / 2
  let hashes ← Merkle.pairInPlace compress nextLevelLen hashes
  pure (hashes.take nextLevelLen, state.2 / 2)

/-- `verify_range_merkle_proof`, on the hashes of the items: the hash it compares with the root,
or `none` where one of its assertions fails before that. -/
def verifyRangeMerkleProof (compress : H → H → H) (hashes : List H) (startIndex : Nat)
    (startPath endPath : List (Option H)) : Option H := do
  if startPath.length ≠ endPath.length then none
  let (hashes, _) ← (startPath.zip endPath).foldlM (verifyRangeLevel compress) (hashes, startIndex)
  hashes[0]?

end ZksyncEra.MiniMerkle
