import ZksyncEra.MerkleTree.Database

/-!
`Patched<DB>` (`storage/database.rs`): a database with an in-memory patch set on top of it.

Reads go to the patch where it is responsible for the version read: a version the patch truncates
or writes anew, and the nodes found in the version it updates; everything else falls through to
the wrapped database. Patches applied to the wrapper accumulate in the patch set, and `flush`
applies them to the wrapped database at once.
-/

namespace ZksyncEra.MerkleTree

/-- `Patched`: the wrapped database and the changes held in memory. -/
structure Patched (DB : Type) where
  inner : DB
  patch : Option PatchSet

namespace Patched

variable {DB : Type} [Database DB]

/-- `Patched::new`. -/
def new (inner : DB) : Patched DB := ⟨inner, none⟩

/-- `lookup_patch`: the node from the patch and whether it is final (no database lookup is
needed). -/
def lookupPatch (self : Patched DB) (key : NodeKey) (isLeaf : Bool) : Option Node × Bool :=
  match self.patch with
  | none => (none, false)
  | some patch =>
    if patch.isNewVersion key.version then (patch.tryTreeNode key isLeaf, true)
    -- Unlike with new versions, we must look both in the update patch and in the original DB.
    else if patch.updatedVersion = some key.version then
      match patch.tryTreeNode key isLeaf with
      | some node => (some node, true)
      | none => (none, false)
    else (none, false)

/-- `flush`: applies the changes held in memory to the wrapped database. -/
def flush (self : Patched DB) : Except String (Patched DB) :=
  match self.patch with
  | some patch => do
    let inner ← Database.applyPatch self.inner patch
    pure ⟨inner, none⟩
  | none => pure self

/-- `reset`: forgets the changes held in memory. -/
def reset (self : Patched DB) : Patched DB := { self with patch := none }

def tryManifest (self : Patched DB) : Option Manifest :=
  match self.patch with
  | some patch => some patch.manifest
  | none => Database.tryManifest self.inner

def tryRoot (self : Patched DB) (version : Nat) : Option Root :=
  match self.patch with
  | some patch =>
    if patch.isNewVersion version || patch.updatedVersion == some version then
      patch.tryRoot version
    else Database.tryRoot self.inner version
  | none => Database.tryRoot self.inner version

def tryTreeNode (self : Patched DB) (key : NodeKey) (isLeaf : Bool) : Option Node :=
  let (patchNode, isFinal) := self.lookupPatch key isLeaf
  if isFinal then patchNode
  else match patchNode with
    | some node => some node
    | none => Database.tryTreeNode self.inner key isLeaf

/-- The `map` of `tree_nodes` that puts the answers of the patch and of the database back in the
requested order; `none` where an iterator runs out (`unwrap`). -/
def interleave {α : Type} : List Bool → List α → List α → Option (List α)
  | [], _, _ => some []
  | true :: rest, value :: patchValues, dbValues => do
    let values ← interleave rest patchValues dbValues
    pure (value :: values)
  | false :: rest, patchValues, value :: dbValues => do
    let values ← interleave rest patchValues dbValues
    pure (value :: values)
  | _, _, _ => none

/-- `tree_nodes`: the nodes the patch answers, and the others from one batched database read. -/
def treeNodes (self : Patched DB) (keys : List (NodeKey × Bool)) : Option (List (Option Node)) :=
  match self.patch with
  | none => Database.treeNodes self.inner keys
  | some _ => do
    let lookups := keys.map fun (key, isLeaf) => self.lookupPatch key isLeaf
    let isInPatch := lookups.map fun (patchNode, isFinal) => isFinal || patchNode.isSome
    let patchValues := lookups.filterMap fun (patchNode, isFinal) =>
      if isFinal then some patchNode else patchNode.map some
    let dbKeys := (keys.zip isInPatch).filterMap fun (key, inPatch) =>
      if inPatch then none else some key
    let dbValues ← Database.treeNodes self.inner dbKeys
    interleave isInPatch patchValues dbValues

/-- `apply_patch`: the new patch goes into the patch set held in memory. -/
def applyPatch (self : Patched DB) (patch : PatchSet) : Except String (Patched DB) :=
  match self.patch with
  | some existingPatch => do
    let existingPatch ← existingPatch.applyPatch patch
    pure { self with patch := some existingPatch }
  | none => pure { self with patch := some patch }

end Patched

instance {DB : Type} [Database DB] : Database (Patched DB) where
  tryManifest := Patched.tryManifest
  tryRoot := Patched.tryRoot
  tryTreeNode := Patched.tryTreeNode
  treeNodes := Patched.treeNodes
  applyPatch := Patched.applyPatch

/-- A patch of one version has that version's root and no other. -/
theorem PatchSet.tryRoot_new (manifest : Manifest) (version : Nat) (root : Root)
    (nodes : HashMap NodeKey Node) (staleKeys : List NodeKey) (operation : Operation) (u : Nat) :
    (PatchSet.new manifest version root nodes staleKeys operation).tryRoot u =
      if u = version then some root.clone else none := by
  by_cases own : u = version <;> simp [PatchSet.new, PatchSet.tryRoot, HashMap.lookup_singleton, own]

/-- A version at or past the version count of the patch is the patch's alone: the overlay never
falls through to the wrapped database for it, whatever the database holds. -/
theorem Patched.tryRoot_of_versionCount_le {DB : Type} [Database DB] (inner : DB)
    (patch : PatchSet) (version : Nat) (past : patch.manifest.versionCount ≤ version) :
    Database.tryRoot (⟨inner, some patch⟩ : Patched DB) version = patch.tryRoot version := by
  simp [Database.tryRoot, Patched.tryRoot, PatchSet.isNewVersion, past]

end ZksyncEra.MerkleTree
