import ZksyncEra.MerkleTree.Proofs

/-!
Reading entries, with or without Merkle proofs (`getters.rs`), and the check of a proof of one
entry (`TreeEntryWithProof::verify` in `hasher/proofs.rs`).

The closure that `load_and_transform_entries` calls for each key takes the patch set by `&mut`:
`create_proof` fills the hash caches of the internal nodes it passes. It is a function that
returns the patch set it leaves. A panic (an `unwrap` in `load_ancestors`, a missing node on the
way up in `create_proof`) is `none`.
-/

set_option linter.dupNamespace false

namespace ZksyncEra.MerkleTree

/-- `NoVersionError`. -/
structure NoVersionError where
  missingVersion : Nat
  versionCount : Nat
  deriving DecidableEq, Repr

/-- `TreeEntryWithProof`: an entry with the Merkle path of its key, from the bottom up, without
the empty subtrees at the bottom. -/
structure TreeEntryWithProof where
  base : TreeEntry
  merklePath : List ValueHash
  deriving DecidableEq, Repr

def TreeEntry.withMerklePath (self : TreeEntry) (merklePath : List ValueHash) :
    TreeEntryWithProof :=
  ⟨self, merklePath⟩

/-- `impl From<LeafNode> for TreeEntry`. -/
def LeafNode.toTreeEntry (leaf : LeafNode) : TreeEntry := ⟨leaf.fullKey, leaf.valueHash, leaf.leafIndex⟩

/-- `TreeEntryWithProof::verify`. -/
def TreeEntryWithProof.verify (self : TreeEntryWithProof) (H : HashTree) (format : HashFormat)
    (trustedRootHash : ValueHash) : Except String Unit := do
  if self.base.leafIndex = 0 then
    ensure (self.base.value == 0)
      "Invalid missing value specification: leaf index is zero, but value is non-default"
  let rootHash := H.foldMerklePath self.merklePath self.base
  ensure (rootHash == trustedRootHash)
    ("Root hash mismatch: got " ++ format.display rootHash ++ ", want " ++
      format.display trustedRootHash)

section Load

variable {DB : Type} [Database DB] {T : Type}

/-- The loop of `load_and_transform_entries` over the keys in the order requested. -/
def transformEntries (transform : WorkingPatchSet → Key → Nibbles → Option (T × WorkingPatchSet)) :
    WorkingPatchSet → List (Key × Nibbles) → Option (List T × WorkingPatchSet)
  | patchSet, [] => some ([], patchSet)
  | patchSet, (leafKey, longestPrefix) :: rest => do
    let (entry, patchSet) ← transform patchSet leafKey longestPrefix
    let (entries, patchSet) ← transformEntries transform patchSet rest
    pure (entry :: entries, patchSet)

/-- `load_and_transform_entries`. -/
def loadAndTransformEntries (db : DB) (version : Nat) (leafKeys : List Key)
    (transform : WorkingPatchSet → Key → Nibbles → Option (T × WorkingPatchSet)) :
    Option (Except NoVersionError (List T)) :=
  match Database.tryRoot db version with
  | none =>
    let manifest := (Database.tryManifest db).getD default
    some (.error ⟨version, manifest.versionCount⟩)
  | some root => do
    let sortedKeys := SortedKeys.new leafKeys
    let patchSet := WorkingPatchSet.new version root
    let (longestPrefixes, patchSet) ← patchSet.loadAncestors sortedKeys db
    let (entries, _) ← transformEntries transform patchSet (leafKeys.zip longestPrefixes)
    pure (.ok entries)

/-- `extract_entry`. -/
def extractEntry (patchSet : WorkingPatchSet) (leafKey : Key) (longestPrefix : Nibbles) :
    TreeEntry :=
  match patchSet.get longestPrefix with
  | some (.leaf leaf) => if leaf.fullKey = leafKey then leaf.toTreeEntry else TreeEntry.empty leafKey
  | _ => TreeEntry.empty leafKey

namespace MerkleTree

/-- `MerkleTree::entries`. -/
def entries (self : MerkleTree DB) (version : Nat) (leafKeys : List Key) :
    Option (Except NoVersionError (List TreeEntry)) :=
  loadAndTransformEntries self.db version leafKeys fun patchSet leafKey longestPrefix =>
    some (extractEntry patchSet leafKey longestPrefix, patchSet)

/-- The closure of `entries_with_proofs` for one key. -/
def proveEntry (H : HashTree) (patchSet : WorkingPatchSet) (leafKey : Key)
    (longestPrefix : Nibbles) : Option (TreeEntryWithProof × WorkingPatchSet) := do
  let ((leaf, merklePath), patchSet) ← patchSet.createProof H leafKey longestPrefix 0
  let value := (leaf.map (·.valueHash)).getD 0
  let entry : TreeEntry := ⟨leafKey, value, (leaf.map (·.leafIndex)).getD 0⟩
  pure (entry.withMerklePath merklePath.intoInner, patchSet)

/-- `MerkleTree::entries_with_proofs`. -/
def entriesWithProofs (self : MerkleTree DB) (version : Nat) (leafKeys : List Key) :
    Option (Except NoVersionError (List TreeEntryWithProof)) :=
  loadAndTransformEntries self.db version leafKeys (proveEntry self.hasher)

end MerkleTree

end Load

end ZksyncEra.MerkleTree
