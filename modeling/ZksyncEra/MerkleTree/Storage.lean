import ZksyncEra.MerkleTree.Patch

/-!
The AR16MT update logic (`storage/mod.rs`) and the tree API over it (`lib.rs`).

`TreeUpdater::insert` is the Jellyfish Merkle tree insertion: walk down from the loaded
ancestor, then update a matching leaf, split a mismatched leaf into a chain of internal nodes
ending in a fork, or hang a new leaf on the internal node that lacks the child; the versions of
the references on the way up are bumped to the new version. Hashes are computed once, when the
patch set is finalized. The updater's metrics are left out, so a `TreeUpdater` is its
`WorkingPatchSet`.
-/

set_option linter.dupNamespace false

namespace ZksyncEra.MerkleTree

/-- Information about the newly inserted or updated leaf, with the adjacent leaf moved down the
tree, if any. -/
structure NewLeafData where
  nibbles : Nibbles
  leaf : LeafNode
  adjacentLeaf : Option (Nibbles × LeafNode)

def NewLeafData.new (nibbles : Nibbles) (leaf : LeafNode) : NewLeafData :=
  ⟨nibbles, leaf, none⟩

def NewLeafData.withAdjacentLeaf (self : NewLeafData) (nibbles : Nibbles) (leaf : LeafNode) :
    NewLeafData :=
  { self with adjacentLeaf := some (nibbles, leaf) }

namespace TreeUpdater

/-- `set_root_node`. -/
def setRootNode (self : WorkingPatchSet) (node : Node) : WorkingPatchSet :=
  self.insert Nibbles.EMPTY node

/-- `update_moved_leaf_ref`: the reference to a leaf about to move down now points to an
internal node. -/
def updateMovedLeafRef (self : WorkingPatchSet) (leafNibbles : Nibbles) :
    Option WorkingPatchSet :=
  match leafNibbles.splitLast with
  | none => some self
  | some (parentNibbles, lastNibble) =>
    self.updateChildRef parentNibbles lastNibble fun childRef => { childRef with isLeaf := false }

/-- The `loop` of the leaf-mismatch case: internal nodes with a single child along the common
nibbles of `key` and the moved leaf, then a fork with both leaves. Returns the index of the
fork. -/
def splitLeaf (version : Nat) (key : Key) (leaf : LeafNode) :
    (fuel : Nat) → (nibbleIdx : Nat) → WorkingPatchSet → Option (Nat × WorkingPatchSet)
  | 0, _, _ => none
  | fuel + 1, nibbleIdx, self =>
    let movedLeafNibble := Nibbles.nibble leaf.fullKey nibbleIdx
    let newLeafNibble := Nibbles.nibble key nibbleIdx
    let node :=
      if movedLeafNibble = newLeafNibble then
        -- Insert a path of internal nodes with a single child.
        InternalNode.empty.insertChildRef newLeafNibble (ChildRef.internal version)
      else
        -- Insert a diverging internal node with 2 children for the existing and the new leaf.
        (InternalNode.empty.insertChildRef newLeafNibble (ChildRef.leaf version)).insertChildRef
          movedLeafNibble (ChildRef.leaf version)
    let self := self.insert (Nibbles.new key nibbleIdx) (.internal node)
    if movedLeafNibble ≠ newLeafNibble then some (nibbleIdx, self)
    else splitLeaf version key leaf fuel (nibbleIdx + 1) self

/-- The `while let` loop of `insert`: bumps `ChildRef.version` on the way from `cursor` up to
the root; `fuel` is the nibble count of `cursor`. -/
def bumpVersions (version : Nat) : (fuel : Nat) → Nibbles → WorkingPatchSet →
    Option WorkingPatchSet
  | 0, _, self => some self
  | fuel + 1, cursor, self =>
    match cursor.splitLast with
    | none => some self
    | some (parentNibbles, lastNibble) => do
      let self ← self.updateChildRef parentNibbles lastNibble fun childRef =>
        { childRef with version := max childRef.version version }
      bumpVersions version fuel parentNibbles self

/-- `TreeUpdater::insert`: inserts or updates the value of `entry.key`, starting the walk at
`parentNibbles`. -/
def insert (self : WorkingPatchSet) (entry : TreeEntry) (parentNibbles : Nibbles) :
    Option (TreeLogEntry × NewLeafData × WorkingPatchSet) := do
  let version := self.rootVersion
  let key := entry.key
  let traverseOutcome ← self.traverse key parentNibbles
  let (log, leafData, self) ← match traverseOutcome with
    | .leafMatch nibbles leaf =>
      let log := TreeLogEntry.updated leaf.leafIndex leaf.valueHash
      let leaf := leaf.updateFrom entry
      pure (log, NewLeafData.new nibbles leaf, self.insert nibbles (.leaf leaf))
    | .leafMismatch nibbles leaf => do
      let self ← updateMovedLeafRef self nibbles
      let (nibbleIdx, self) ←
        splitLeaf version key leaf (2 * KEY_SIZE - nibbles.nibbleCount) nibbles.nibbleCount self
      let newLeaf := LeafNode.new entry
      let newLeafNibbles := Nibbles.new key (nibbleIdx + 1)
      let leafData := NewLeafData.new newLeafNibbles newLeaf
      let movedLeafNibbles := Nibbles.new leaf.fullKey (nibbleIdx + 1)
      pure (.inserted, leafData.withAdjacentLeaf movedLeafNibbles leaf, self)
    | .missingChild nibbles =>
      if nibbles.nibbleCount = 0 then
        -- The root is currently empty; we replace it with a leaf.
        let rootLeaf := LeafNode.new entry
        pure (.inserted, NewLeafData.new Nibbles.EMPTY rootLeaf, setRootNode self (.leaf rootLeaf))
      else do
        let (parentNibbles, lastNibble) ← nibbles.splitLast
        let self ← self.updateInternal parentNibbles fun parent =>
          some (parent.insertChildRef lastNibble (ChildRef.leaf version))
        pure (.inserted, NewLeafData.new nibbles (LeafNode.new entry), self)
  let self := if log = .inserted then self.insert leafData.nibbles (.leaf leafData.leaf) else self
  let self := match leafData.adjacentLeaf with
    | some (nibbles, leaf) => self.insert nibbles (.leaf leaf)
    | none => self
  -- Traverse nodes up to the root level and update `ChildRef.version`.
  let cursor := traverseOutcome.position
  let self ← bumpVersions version cursor.nibbleCount cursor self
  pure (log, leafData, self)

end TreeUpdater

/-- `TreeTags::new`. -/
def TreeTags.new (hasher : HashTree) : TreeTags :=
  ⟨TreeTags.ARCHITECTURE, TREE_DEPTH, hasher.name, false, ∅⟩

/-- `Storage`: a `TreeUpdater` together with a link to the database. -/
structure Storage (DB : Type) where
  db : DB
  hasher : HashTree
  manifest : Manifest
  leafCount : Nat
  operation : Operation
  updater : WorkingPatchSet

namespace Storage

variable {DB : Type} [Database DB]

/-- `Storage::new`: storage for version `version`, built on the previous version's root when a
new version is created and on the same version's root otherwise. -/
def new (db : DB) (hasher : HashTree) (version : Nat) (createNewVersion : Bool) : Storage DB :=
  let manifest := (Database.tryManifest db).getD default
  let manifest :=
    if manifest.tags.isNone then { manifest with tags := some (TreeTags.new hasher) } else manifest
  let manifest := { manifest with versionCount := version + 1 }
  let baseVersion :=
    if createNewVersion then (if 1 ≤ version then some (version - 1) else none) else some version
  let root := match baseVersion with
    | some baseVersion => (Database.tryRoot db baseVersion).getD .empty
    | none => .empty
  { db, hasher, manifest
    leafCount := root.leafCount
    operation := if createNewVersion then .insert else .update
    updater := WorkingPatchSet.new version root }

/-- The loop of `extend` over the entries with their loaded ancestors: logs and leaf count. -/
def insertEntries : WorkingPatchSet → Nat → List (TreeEntry × Nibbles) →
    Option (List TreeLogEntry × Nat × WorkingPatchSet)
  | updater, leafCount, [] => some ([], leafCount, updater)
  | updater, leafCount, (entry, parentNibbles) :: rest => do
    let (log, _, updater) ← TreeUpdater.insert updater entry parentNibbles
    let leafCount := if log = .inserted then leafCount + 1 else leafCount
    let (logs, leafCount, updater) ← insertEntries updater leafCount rest
    pure (log :: logs, leafCount, updater)

/-- `Storage::finalize`. -/
def finalize (self : Storage DB) : Option (ValueHash × PatchSet) :=
  self.updater.finalize self.manifest self.leafCount self.operation self.hasher

/-- `Storage::extend`: the lightweight operation mode, without intermediate hashes. -/
def extend (self : Storage DB) (entries : List TreeEntry) : Option (BlockOutput × PatchSet) := do
  let sortedKeys := SortedKeys.new (entries.map (·.key))
  let (parentNibbles, updater) ← self.updater.loadAncestors sortedKeys self.db
  let (logs, leafCount, updater) ← insertEntries updater self.leafCount (entries.zip parentNibbles)
  let (rootHash, patch) ← finalize { self with leafCount, updater }
  pure (⟨rootHash, leafCount, logs⟩, patch)

end Storage

/-- `MerkleTree`: a database with a hasher. -/
structure MerkleTree (DB : Type) where
  db : DB
  hasher : HashTree

namespace MerkleTree

variable {DB : Type} [Database DB]

/-- `root_hash`: the hash of the tree at `version`, `none` if the version is not written. -/
def rootHash (self : MerkleTree DB) (version : Nat) : Option ValueHash :=
  (Database.tryRoot self.db version).map (·.hash self.hasher)

/-- `latest_version`. -/
def latestVersion (self : MerkleTree DB) : Option Nat :=
  (Database.tryManifest self.db).bind fun manifest =>
    if 1 ≤ manifest.versionCount then some (manifest.versionCount - 1) else none

/-- `latest_root_hash`. -/
def latestRootHash (self : MerkleTree DB) : ValueHash :=
  ((self.latestVersion).bind self.rootHash).getD self.hasher.emptyTreeHash

/-- `extend`: creates the next version of the tree. A panic of the update is the error
`unwrapFailed`. -/
def extend (self : MerkleTree DB) (entries : List TreeEntry) :
    Except String (BlockOutput × MerkleTree DB) := do
  let nextVersion := ((Database.tryManifest self.db).getD default).versionCount
  let storage := Storage.new self.db self.hasher nextVersion true
  let some (output, patch) := storage.extend entries | throw unwrapFailed
  let db ← Database.applyPatch self.db patch
  pure (output, { self with db })

end MerkleTree

section Prune

variable {DB : Type} [PruneDatabase DB]

/-- `truncate_recent_versions`: keeps the first `retainedVersionCount` versions; node data of
the removed versions stays, but their stale keys go. -/
def MerkleTree.truncateRecentVersions (self : MerkleTree DB) (retainedVersionCount : Nat) :
    MerkleTree DB :=
  let manifest := ((Database.tryManifest self.db).getD default)
  let currentVersionCount := manifest.versionCount
  if currentVersionCount > retainedVersionCount then
    let manifest := { manifest with versionCount := retainedVersionCount }
    { self with db := PruneDatabase.truncate self.db manifest currentVersionCount }
  else self

/-- `first_retained_version`: the version before the least version with stale keys, since at
least the root is replaced in every version. -/
def MerkleTree.firstRetainedVersion (self : MerkleTree DB) : Option Nat :=
  match PruneDatabase.minStaleKeyVersion self.db with
  | some version => if 1 ≤ version then some (version - 1) else none
  -- No stale keys means all past versions of the tree have been pruned.
  | none => self.latestVersion

end Prune

end ZksyncEra.MerkleTree
