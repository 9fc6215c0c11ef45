import ZksyncEra.MerkleTree.Hasher
import ZksyncEra.MerkleTree.Database

/-!
The mutable patch set of one tree update (`storage/patch.rs`): `WorkingPatchSet` keeps the
nodes changed or loaded in the version being created, grouped by nibble count, each with the
version it was loaded from. `load_ancestors` brings in the nodes on the paths of the updated
keys level by level, `traverse` walks down from a loaded ancestor, and `finalize_inner` hashes
the changed nodes bottom-up, writes the hashes into their parents and collects the new nodes
and stale keys into a `PatchSet`.

Loops without a bound in the source run on fuel that covers every run (a key has 64 nibbles);
running out of fuel, like an `unwrap` of `None` or `unreachable!`, is `none`. Metrics and
database read counts are left out.
-/

namespace ZksyncEra.MerkleTree

/-- `WorkingNode`: a node with the version it was loaded from (`None` for new nodes). -/
structure WorkingNode where
  inner : Node
  prevVersion : Option Nat

/-- One level of changes: nodes keyed by the bytes of their nibbles. -/
abbrev LevelChanges := HashMap NibblesBytes WorkingNode

/-- `WorkingPatchSet`. -/
structure WorkingPatchSet where
  rootVersion : Nat
  /-- Changes grouped by nibble count, so that hashes can be computed level by level. -/
  changesByNibbleCount : List LevelChanges

/-- Outcome of traversing a tree for a specific key. -/
inductive TraverseOutcome where
  /-- The matching leaf is present in the tree. -/
  | leafMatch (nibbles : Nibbles) (leaf : LeafNode)
  /-- The traversal ends in a leaf with mismatched full key. -/
  | leafMismatch (nibbles : Nibbles) (leaf : LeafNode)
  /-- The traversal cannot proceed because of a missing child ref in an internal node. -/
  | missingChild (nibbles : Nibbles)

/-- The final position of the traversal. -/
def TraverseOutcome.position : TraverseOutcome → Nibbles
  | .leafMatch nibbles _ | .leafMismatch nibbles _ | .missingChild nibbles => nibbles

/-- `SortedKeys`: keys with their indices in the block, sorted by key. -/
structure SortedKeys where
  keys : List (Nat × Key)

def SortedKeys.new (keys : List Key) : SortedKeys :=
  ⟨((List.range keys.length).zip keys).mergeSort fun a b => decide (a.2 ≤ b.2)⟩

namespace WorkingPatchSet

def new (rootVersion : Nat) (root : Root) : WorkingPatchSet :=
  match root with
  | .filled _ _ node =>
    let rootNode : WorkingNode := ⟨node, if 1 ≤ rootVersion then some (rootVersion - 1) else none⟩
    ⟨rootVersion, [AList.singleton Nibbles.EMPTY.bytes rootNode]⟩
  | .empty => ⟨rootVersion, []⟩

/-- The working node at `nibbles`. -/
def getWorking (self : WorkingPatchSet) (nibbles : Nibbles) : Option WorkingNode :=
  (self.changesByNibbleCount[nibbles.nibbleCount]?).bind (·.lookup nibbles.bytes)

def get (self : WorkingPatchSet) (nibbles : Nibbles) : Option Node :=
  (self.getWorking nibbles).map (·.inner)

/-- `insert`: a new node starts with no previous version; an existing one keeps it. -/
def insert (self : WorkingPatchSet) (key : Nibbles) (node : Node) : WorkingPatchSet :=
  let levels := self.changesByNibbleCount
  let levels :=
    if key.nibbleCount ≥ levels.length then
      levels ++ List.replicate (key.nibbleCount + 1 - levels.length) ∅
    else levels
  let level := (levels[key.nibbleCount]?).getD ∅
  let entry : WorkingNode := match level.lookup key.bytes with
    | none => ⟨node, none⟩
    | some existing => { existing with inner := node }
  { self with changesByNibbleCount := levels.set key.nibbleCount (level.insert key.bytes entry) }

/-- A change of the internal node at `key` through `get_mut`; `none` if there is no internal
node there or the change fails. -/
def updateInternal (self : WorkingPatchSet) (key : Nibbles)
    (f : InternalNode → Option InternalNode) : Option WorkingPatchSet := do
  let level ← self.changesByNibbleCount[key.nibbleCount]?
  let node ← level.lookup key.bytes
  let .internal parent := node.inner | none
  let parent ← f parent
  pure { self with
    changesByNibbleCount := self.changesByNibbleCount.set key.nibbleCount
      (level.insert key.bytes { node with inner := .internal parent }) }

def childRef (self : WorkingPatchSet) (key : Nibbles) (childNibble : UInt8) : Option ChildRef :=
  match self.get key with
  | some (.internal parent) => parent.childRef childNibble
  | _ => none

/-- A change of a child reference through `child_ref_mut(..).unwrap()`. -/
def updateChildRef (self : WorkingPatchSet) (key : Nibbles) (childNibble : UInt8)
    (f : ChildRef → ChildRef) : Option WorkingPatchSet :=
  self.updateInternal key fun parent => parent.updateChildRef childNibble f

/-- `push_level_from_db`: the nodes are loaded, not changed, so they keep their versions. -/
def pushLevelFromDb (self : WorkingPatchSet) (level : List (NodeKey × Node)) :
    WorkingPatchSet :=
  let level : LevelChanges := level.foldl (fun changes (key, node) =>
    changes.insert key.nibbles.bytes ⟨node, some key.version⟩) ∅
  { self with changesByNibbleCount := self.changesByNibbleCount ++ [level] }

/-! ### Finalization -/

section Finalize

variable (rootVersion : Nat) (operation : Operation)

/-- The body of `finalize_inner` for the hashed nodes of one level below the root: the hash
goes into the parent's reference, whose version is the node's version; a node whose version
moved past its previous one replaces it (making the old key stale) and is written. -/
def finalizeLevel : List (Nibbles × Option ValueHash × WorkingNode) → LevelChanges →
    HashMap NodeKey Node → List NodeKey → Option (LevelChanges × HashMap NodeKey Node × List NodeKey)
  | [], upperLevelChanges, patchedNodes, staleKeys =>
    some (upperLevelChanges, patchedNodes, staleKeys)
  | (nibbles, nodeHash, node) :: rest, upperLevelChanges, patchedNodes, staleKeys => do
    let (parentNibbles, lastNibble) ← nibbles.splitLast
    let parent ← upperLevelChanges.lookup parentNibbles.bytes
    let .internal parentNode := parent.inner | none
    let selfRef ← parentNode.childRef lastNibble
    let parentNode ← parentNode.updateChildRef lastNibble fun selfRef =>
      match nodeHash with
      | some nodeHash => { selfRef with hash := nodeHash }
      | none => selfRef
    let upperLevelChanges :=
      upperLevelChanges.insert parentNibbles.bytes { parent with inner := .internal parentNode }
    let nodeVersion := selfRef.version
    let wasReplaced := match node.prevVersion with
      | none => true
      | some prevVersion => prevVersion < nodeVersion
    let staleKeys := match wasReplaced, node.prevVersion with
      | true, some prevVersion => staleKeys ++ [nibbles.withVersion prevVersion]
      | _, _ => staleKeys
    -- For updates every node is written, whether its version changed or not.
    let patchedNodes :=
      if wasReplaced || operation == .update then
        patchedNodes.insert (nibbles.withVersion nodeVersion) node.inner
      else patchedNodes
    finalizeLevel rest upperLevelChanges patchedNodes staleKeys

variable (manifest : Manifest) (leafCount : Nat)
  (mapLevelChanges : Nat → LevelChanges → List (Nibbles × Option ValueHash × WorkingNode))

/-- The loop of `finalize_inner`, popping levels deepest first: `levelChanges` is the popped
level and `upper` the levels still in `changes_by_nibble_count`, last one first. -/
def finalizeLevels : LevelChanges → List LevelChanges → HashMap NodeKey Node → List NodeKey →
    Option (Option ValueHash × PatchSet)
  | levelChanges, [], patchedNodes, staleKeys =>
    -- We're at the root node level.
    match mapLevelChanges 0 levelChanges with
    | [] => none
    | (nibbles, nodeHash, node) :: _ => do
      -- The root node is always replaced for inserts and is never replaced for updates.
      let staleKeys := match operation, node.prevVersion with
        | .insert, some prevVersion => staleKeys ++ [nibbles.withVersion prevVersion]
        | _, _ => staleKeys
      let root ← Root.new leafCount node.inner
      pure (nodeHash, PatchSet.new manifest rootVersion root patchedNodes staleKeys operation)
  | levelChanges, upperLevelChanges :: rest, patchedNodes, staleKeys => do
    let hashedNodes := mapLevelChanges (rest.length + 1) levelChanges
    let (upperLevelChanges, patchedNodes, staleKeys) ←
      finalizeLevel operation hashedNodes upperLevelChanges patchedNodes staleKeys
    finalizeLevels upperLevelChanges rest patchedNodes staleKeys

end Finalize

/-- `finalize_inner`. -/
def finalizeInner (self : WorkingPatchSet) (manifest : Manifest) (leafCount : Nat)
    (operation : Operation)
    (mapLevelChanges : Nat → LevelChanges → List (Nibbles × Option ValueHash × WorkingNode)) :
    Option (Option ValueHash × PatchSet) :=
  let len := (self.changesByNibbleCount.map (·.entries.length)).sum
  if len = 0 then
    -- The tree is empty and there is no root present.
    some (none, PatchSet.forEmptyRoot manifest self.rootVersion)
  else
    match self.changesByNibbleCount.reverse with
    | [] => none
    | levelChanges :: upper =>
      finalizeLevels self.rootVersion operation manifest leafCount mapLevelChanges levelChanges
        upper ∅ []

/-- `finalize`: hashes every changed node at its level. -/
def finalize (self : WorkingPatchSet) (manifest : Manifest) (leafCount : Nat)
    (operation : Operation) (hasher : HashTree) : Option (ValueHash × PatchSet) := do
  let (rootHash, patch) ← self.finalizeInner manifest leafCount operation
    fun nibbleCount levelChanges =>
      let treeLevel := nibbleCount * 4
      levelChanges.entries.map fun entry =>
        (Nibbles.fromParts entry.1 nibbleCount, some (entry.2.inner.hash hasher treeLevel), entry.2)
  pure (rootHash.getD hasher.emptyTreeHash, patch)

/-- `finalize_without_hashing`. -/
def finalizeWithoutHashing (self : WorkingPatchSet) (manifest : Manifest) (leafCount : Nat) :
    Option PatchSet := do
  let (_, patch) ← self.finalizeInner manifest leafCount .insert
    fun nibbleCount levelChanges =>
      levelChanges.entries.map fun entry => (Nibbles.fromParts entry.1 nibbleCount, none, entry.2)
  pure patch

/-! ### Loading ancestors -/

/-- The closure of the `filter_map` of one iteration of `load_ancestors`, for the key at `idx`:
settles its longest prefix if it has no loaded child at `nibbleCount`, and otherwise requests the
child node, once per run of equal nibbles. -/
def requestKey (self : WorkingPatchSet) (nibbleCount : Nat)
    (state : List (Option Nibbles) × Option Nibbles × List (NodeKey × Bool)) (idxKey : Nat × Key) :
    Option (List (Option Nibbles) × Option Nibbles × List (NodeKey × Bool)) := do
  let (idx, key) := idxKey
  let (longestPrefixes, prevNibbles, requested) := state
  if (longestPrefixes[idx]?).join.isSome then
    return (longestPrefixes, prevNibbles, requested)
  if nibbleCount > 2 * KEY_SIZE then
    -- We have traversed to the final tree level; the longest prefix is the full key.
    return (longestPrefixes.set idx (some (Nibbles.new key (2 * KEY_SIZE))), prevNibbles,
      requested)
  let nibbles := Nibbles.new key nibbleCount
  let (thisParentNibbles, lastNibble) ← nibbles.splitLast
  let some thisRef := self.childRef thisParentNibbles lastNibble
    | return (longestPrefixes.set idx (some thisParentNibbles), prevNibbles, requested)
  -- Deduplicate by `nibbles`.
  if prevNibbles = some nibbles then
    return (longestPrefixes, prevNibbles, requested)
  return (longestPrefixes, some nibbles,
    requested ++ [(nibbles.withVersion thisRef.version, thisRef.isLeaf)])

/-- The `filter_map` of one iteration of `load_ancestors` over the sorted keys. `prevNibbles`
lives across the iterations, as in the source. -/
def requestKeys (self : WorkingPatchSet) (nibbleCount : Nat) (keys : List (Nat × Key))
    (longestPrefixes : List (Option Nibbles)) (prevNibbles : Option Nibbles) :
    Option (List (Option Nibbles) × Option Nibbles × List (NodeKey × Bool)) :=
  keys.foldlM (self.requestKey nibbleCount) (longestPrefixes, prevNibbles, [])

/-- The loop of `load_ancestors` from `nibbleCount` on. -/
def loadAncestorsLoop {DB : Type} [Database DB] (sortedKeys : SortedKeys) (db : DB) :
    (fuel : Nat) → (nibbleCount : Nat) → WorkingPatchSet → List (Option Nibbles) →
      Option Nibbles → Option (List Nibbles × WorkingPatchSet)
  | 0, _, _, _, _ => none
  | fuel + 1, nibbleCount, self, longestPrefixes, prevNibbles => do
    let (longestPrefixes, prevNibbles, requestedKeys) ←
      self.requestKeys nibbleCount sortedKeys.keys longestPrefixes prevNibbles
    if requestedKeys.isEmpty then
      -- All parents must be set at this point.
      let longestPrefixes ← longestPrefixes.mapM id
      return (longestPrefixes, self)
    let newNodes ← Database.treeNodes db requestedKeys
    -- All requested nodes are referenced by their parents.
    let level ← (requestedKeys.zip newNodes).mapM fun ((key, _), node) => node.map (key, ·)
    loadAncestorsLoop sortedKeys db fuel (nibbleCount + 1) (self.pushLevelFromDb level)
      longestPrefixes prevNibbles

/-- `load_ancestors`: the longest prefix present in the tree for each key, in the order of the
block, and the patch set with the nodes on the way loaded. -/
def loadAncestors {DB : Type} [Database DB] (self : WorkingPatchSet) (sortedKeys : SortedKeys)
    (db : DB) : Option (List Nibbles × WorkingPatchSet) :=
  match self.get Nibbles.EMPTY with
  | some (.internal _) =>
    loadAncestorsLoop sortedKeys db (2 * KEY_SIZE + 1) 1 self
      (List.replicate sortedKeys.keys.length none) none
  | _ => some (List.replicate sortedKeys.keys.length Nibbles.EMPTY, self)

/-! ### Traversal -/

/-- The loop of `traverse` from `nibbleIdx` on. -/
def traverseFrom (self : WorkingPatchSet) (key : Key) :
    (fuel : Nat) → (nibbleIdx : Nat) → Option TraverseOutcome
  | 0, _ => none
  | fuel + 1, nibbleIdx =>
    let nibbles := Nibbles.new key nibbleIdx
    match self.get nibbles with
    | some (.internal _) => traverseFrom self key fuel (nibbleIdx + 1)
    | some (.leaf leaf) =>
      if leaf.fullKey = key then some (.leafMatch nibbles leaf)
      else some (.leafMismatch nibbles leaf)
    | none => some (.missingChild nibbles)

/-- `traverse`: walks down from `parentNibbles` along `key`. -/
def traverse (self : WorkingPatchSet) (key : Key) (parentNibbles : Nibbles) :
    Option TraverseOutcome :=
  self.traverseFrom key (2 * KEY_SIZE + 1 - parentNibbles.nibbleCount) parentNibbles.nibbleCount

end WorkingPatchSet

end ZksyncEra.MerkleTree
