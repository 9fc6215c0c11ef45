import ZksyncEra.MerkleTree.Types

/-!
Storage of tree versions (`storage/database.rs`, `storage/patch.rs`): the in-memory
`PatchSet` with its `Database` and `PruneDatabase` implementations.

A `PatchSet` keeps, for every version, the root and the nodes written in that version, together
with the keys each version made stale. Deserialization errors cannot occur for it and are left
out, so its reads return plain options. Panics of `unwrap` are the error
`unwrapFailed`; `ensure!` failures carry the source's text.
-/

namespace ZksyncEra.MerkleTree

/-- Message of a failed `unwrap` of an empty option. -/
def unwrapFailed : String := "called `Option::unwrap()` on a `None` value"

namespace HashMap

variable {K V : Type} [DecidableEq K]

/-- `HashMap::retain`. -/
def retain (m : HashMap K V) (keep : K → V → Bool) : HashMap K V :=
  ⟨m.entries.filter fun entry => keep entry.1 entry.2, m.nodupKeys.sublist List.filter_sublist⟩

/-- `HashMap::extend`: the entries of `other` replace those of `m` with the same key. -/
def extend (m other : HashMap K V) : HashMap K V :=
  other ∪ m

theorem lookup_retain (m : HashMap K V) (keep : K → V → Bool) (key : K) :
    (m.retain keep).lookup key = (m.lookup key).filter (keep key) := by
  obtain ⟨entries, nodup⟩ := m
  unfold retain AList.lookup
  simp only
  induction entries with
  | nil => rfl
  | cons entry rest ih =>
    obtain ⟨k, v⟩ := entry
    have restNodup := List.nodupKeys_cons.mp nodup
    by_cases same : k = key
    · subst same
      -- the key occurs once, so dropping its entry leaves nothing behind
      have absent : List.dlookup k rest = none := List.dlookup_eq_none.mpr restNodup.1
      by_cases kept : keep k v <;>
        simp [kept, ih restNodup.2, absent, List.dlookup_cons_eq, Option.filter_some]
    · have other : key ≠ (⟨k, v⟩ : (_ : K) × V).1 := Ne.symm same
      by_cases kept : keep k v <;>
        simp [kept, List.dlookup_cons_ne _ _ other, ih restNodup.2]

theorem lookup_extend (m other : HashMap K V) (key : K) :
    (m.extend other).lookup key = (other.lookup key).or (m.lookup key) := by
  unfold extend
  by_cases present : key ∈ other
  · rw [AList.lookup_union_left present]
    obtain ⟨v, found⟩ := Option.isSome_iff_exists.mp (AList.lookup_isSome.mpr present)
    rw [found, Option.some_or]
  · rw [AList.lookup_union_right present, AList.lookup_eq_none.mpr present, Option.none_or]

theorem lookup_singleton (k : K) (v : V) (key : K) :
    (AList.singleton k v : HashMap K V).lookup key = if key = k then some v else none := by
  by_cases same : key = k
  · subst same
    simp [AList.lookup, AList.singleton]
  · simp [AList.lookup, AList.singleton, List.dlookup, same]

end HashMap

/-! ### Patch sets -/

/-- Tree operation: inserting a new version, or updating an existing one (the latter is only
used during tree recovery). -/
inductive Operation where
  | insert
  | update
  deriving DecidableEq, Repr

/-- `PartialPatchSet`: the part of a `PatchSet` for one version. All its nodes have that
version. -/
structure PartialPatchSet where
  root : Option Root
  nodes : HashMap NodeKey Node

namespace PartialPatchSet

def empty : PartialPatchSet :=
  ⟨none, ∅⟩

/-- `PartialPatchSet::merge`. -/
def merge (self other : PartialPatchSet) : PartialPatchSet :=
  { root := other.root, nodes := self.nodes.extend other.nodes }

end PartialPatchSet

/-- `PatchSet`: raw set of database changes. -/
structure PatchSet where
  manifest : Manifest
  patchesByVersion : HashMap Nat PartialPatchSet
  /-- If present, `patchesByVersion` contains this version, and it is smaller than all other
  versions there. -/
  updatedVersion : Option Nat
  staleKeysByVersion : HashMap Nat (List NodeKey)

namespace PatchSet

/-- `PatchSet::default`. -/
instance : Inhabited PatchSet :=
  ⟨⟨default, ∅, none, ∅⟩⟩

def fromManifest (manifest : Manifest) : PatchSet :=
  ⟨manifest, ∅, none, ∅⟩

/-- `PatchSet::new`: a single version with its root, nodes and stale keys. -/
def new (manifest : Manifest) (version : Nat) (root : Root) (nodes : HashMap NodeKey Node)
    (staleKeys : List NodeKey) (operation : Operation) : PatchSet :=
  let partialPatch : PartialPatchSet := ⟨some root, nodes⟩
  let updatedVersion := match operation with
    | .insert => none
    | .update => some version
  { manifest
    patchesByVersion := AList.singleton version partialPatch
    updatedVersion
    staleKeysByVersion := AList.singleton version staleKeys }

/-- `PatchSet::for_empty_root`: an empty root replacing the previous version's root. -/
def forEmptyRoot (manifest : Manifest) (version : Nat) : PatchSet :=
  let staleKeys := if 1 ≤ version then [Nibbles.EMPTY.withVersion (version - 1)] else []
  new manifest version .empty ∅ staleKeys .insert

/-- `PatchSet::is_new_version`: the version is truncated by this patch, or written by it and
not merely updated. -/
def isNewVersion (self : PatchSet) (version : Nat) : Bool :=
  version ≥ self.manifest.versionCount ||
    (self.updatedVersion != some version && (self.patchesByVersion.lookup version).isSome)

/-! ### `Database` for `PatchSet` -/

def tryManifest (self : PatchSet) : Option Manifest :=
  some self.manifest

/-- `try_root`: a clone of the stored root. -/
def tryRoot (self : PatchSet) (version : Nat) : Option Root :=
  ((self.patchesByVersion.lookup version).bind (·.root)).map Root.clone

/-- `try_tree_node`: a clone of the stored node; the requested node type is only
debug-asserted. -/
def tryTreeNode (self : PatchSet) (key : NodeKey) (_isLeaf : Bool) : Option Node :=
  ((self.patchesByVersion.lookup key.version).bind (·.nodes.lookup key)).map Node.clone

/-- Merges the stale keys of `other` into `staleKeysByVersion`, appending per version. -/
def mergeStaleKeys (staleKeysByVersion other : HashMap Nat (List NodeKey)) :
    HashMap Nat (List NodeKey) :=
  other.entries.foldl (fun staleKeys entry =>
      staleKeys.insert entry.1 ((staleKeys.lookup entry.1).getD [] ++ entry.2))
    staleKeysByVersion

/-- `apply_patch`. -/
def applyPatch (self other : PatchSet) : Except String PatchSet := do
  let (self, other) ← match other.updatedVersion with
    | none => pure (self, other)
    | some otherUpdatedVersion =>
      match self.updatedVersion with
      | some updatedVersion =>
        if otherUpdatedVersion ≠ updatedVersion then
          throw "Cannot merge patches with different updated versions"
        let some patch := self.patchesByVersion.lookup updatedVersion
          | throw unwrapFailed
        let some otherPatch := other.patchesByVersion.lookup updatedVersion
          | throw unwrapFailed
        pure ({ self with
            patchesByVersion := self.patchesByVersion.insert updatedVersion (patch.merge otherPatch) },
          { other with patchesByVersion := other.patchesByVersion.erase updatedVersion })
      | none =>
        if !self.patchesByVersion.keys.all (· > otherUpdatedVersion) then
          throw ("Cannot update a patch set from another one; this would break the update " ++
            "version invariant (the update version being lesser than all inserted versions)")
        pure ({ self with updatedVersion := some otherUpdatedVersion }, other)
  let newVersionCount := other.manifest.versionCount
  let patchesByVersion :=
    if newVersionCount < self.manifest.versionCount then
      -- Remove obsolete sub-patches from the patch.
      self.patchesByVersion.retain fun version _ => version < newVersionCount
    else self.patchesByVersion
  pure { self with
    manifest := other.manifest
    patchesByVersion := patchesByVersion.extend other.patchesByVersion
    staleKeysByVersion := mergeStaleKeys self.staleKeysByVersion other.staleKeysByVersion }

/-! ### `PruneDatabase` for `PatchSet` -/

/-- `min_stale_key_version`: the least version with a non-empty list of stale keys. -/
def minStaleKeyVersion (self : PatchSet) : Option Nat :=
  (self.staleKeysByVersion.entries.filterMap fun entry =>
    if entry.2.isEmpty then none else some entry.1).min?

def staleKeys (self : PatchSet) (version : Nat) : List NodeKey :=
  (self.staleKeysByVersion.lookup version).getD []

end PatchSet

/-- `PrunePatchSet`: keys to remove and the range of replacing versions whose stale keys go. -/
structure PrunePatchSet where
  prunedNodeKeys : List NodeKey
  /-- The range `start..end` of `deleted_stale_key_versions`. -/
  deletedStaleKeyVersions : Nat × Nat

namespace PatchSet

/-- `prune`: removes the pruned nodes (the root for an empty key) of the versions still
present, and the stale keys of the deleted versions. -/
def prune (self : PatchSet) (patch : PrunePatchSet) : PatchSet :=
  let patchesByVersion := patch.prunedNodeKeys.foldl (fun patches key =>
      match patches.lookup key.version with
      | none => patches
      | some partialPatch =>
        patches.insert key.version
          (if key.isEmpty then { partialPatch with root := none }
          else { partialPatch with nodes := partialPatch.nodes.erase key }))
    self.patchesByVersion
  let (start, stop) := patch.deletedStaleKeyVersions
  { self with
    patchesByVersion
    staleKeysByVersion := self.staleKeysByVersion.retain fun version _ =>
      !(start ≤ version && version < stop) }

/-- `truncate`: replaces the manifest and drops the stale keys of every version in
`..truncatedVersions`. -/
def truncate (self : PatchSet) (manifest : Manifest) (truncatedVersions : Nat) : PatchSet :=
  { self with
    manifest
    staleKeysByVersion := self.staleKeysByVersion.retain fun version _ =>
      !(version < truncatedVersions) }

end PatchSet

/-! ### Database interfaces -/

/-- `Database`: generic tree storage. -/
class Database (DB : Type) where
  tryManifest : DB → Option Manifest
  tryRoot : DB → Nat → Option Root
  tryTreeNode : DB → NodeKey → Bool → Option Node
  /-- `tree_nodes`: the nodes in the order requested; `none` if the implementation breaks the
  length contract that callers `unwrap`. -/
  treeNodes : DB → List (NodeKey × Bool) → Option (List (Option Node)) :=
    fun db keys => some (keys.map fun (key, isLeaf) => tryTreeNode db key isLeaf)
  applyPatch : DB → PatchSet → Except String DB

/-- `PruneDatabase`: pruning and truncation of past versions. -/
class PruneDatabase (DB : Type) extends Database DB where
  minStaleKeyVersion : DB → Option Nat
  staleKeys : DB → Nat → List NodeKey
  prune : DB → PrunePatchSet → DB
  truncate : DB → Manifest → Nat → DB

instance : Database PatchSet where
  tryManifest := PatchSet.tryManifest
  tryRoot := PatchSet.tryRoot
  tryTreeNode := PatchSet.tryTreeNode
  applyPatch := PatchSet.applyPatch

instance : PruneDatabase PatchSet where
  minStaleKeyVersion := PatchSet.minStaleKeyVersion
  staleKeys := PatchSet.staleKeys
  prune := PatchSet.prune
  truncate := PatchSet.truncate

end ZksyncEra.MerkleTree
