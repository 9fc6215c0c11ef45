import ZksyncEra.MerkleTree.Storage

/-!
Consistency verification of a stored tree version (`consistency.rs`).

`verify_consistency` walks the tree depth-first from the root of a version: every child reference
must name a stored node of the stated type at the child's key and the stated version, whose
recomputed hash is the reference's hash; a non-root internal node has children and the version of
its newest child, the root's version is not older; no internal node sits at the terminal level;
a leaf's full key lies below its position; and, on request, the leaf indices are exactly
`1..=leaf_count`.

The source checks the children of a node in parallel and returns one of the errors found; here
they are checked one after another in nibble order. Deserialization errors cannot occur for the
modelled databases and are left out.
-/

set_option linter.dupNamespace false

namespace ZksyncEra.MerkleTree

/-- `ConsistencyError`. -/
inductive ConsistencyError where
  | missingVersion (version : Nat)
  | missingRoot (version : Nat)
  | missingNode (key : NodeKey) (isLeaf : Bool)
  | terminalInternalNode (key : NodeKey)
  | leafCountMismatch (expected actual : Nat)
  | hashMismatch (key : NodeKey) (nibble : UInt8) (expected actual : ValueHash)
  | fullKeyMismatch (key : NodeKey) (fullKey : Key)
  | zeroIndex (fullKey : Key)
  | leafIndexOverflow (index leafCount : Nat) (fullKey : Key)
  | duplicateLeafIndex (index : Nat) (fullKey : Key)
  | emptyInternalNode (key : NodeKey)
  | keyVersionMismatch (key : NodeKey) (expectedVersion : Nat)
  | rootVersionMismatch (maxChildVersion : Nat)
  deriving DecidableEq, Repr

/-- `LeafConsistencyData`: the expected leaf count, the leaves seen and the set bits of
`leaf_indices_set` (leaf index minus one). -/
structure LeafConsistencyData where
  expectedLeafCount : Nat
  actualLeafCount : Nat
  leafIndicesSet : List Nat
  deriving DecidableEq, Repr

namespace LeafConsistencyData

def new (expectedLeafCount : Nat) : LeafConsistencyData :=
  ⟨expectedLeafCount, 0, []⟩

/-- `insert_leaf`. -/
def insertLeaf (self : LeafConsistencyData) (leaf : LeafNode) :
    Except ConsistencyError LeafConsistencyData := do
  if leaf.leafIndex = 0 then throw (.zeroIndex leaf.fullKey)
  if leaf.leafIndex > self.expectedLeafCount then
    throw (.leafIndexOverflow leaf.leafIndex self.expectedLeafCount leaf.fullKey)
  let index := leaf.leafIndex - 1
  if index ∈ self.leafIndicesSet then throw (.duplicateLeafIndex leaf.leafIndex leaf.fullKey)
  pure { self with
    leafIndicesSet := index :: self.leafIndicesSet
    actualLeafCount := self.actualLeafCount + 1 }

/-- `validate_count`. -/
def validateCount (self : LeafConsistencyData) : Except ConsistencyError Unit :=
  if self.actualLeafCount = self.expectedLeafCount then pure ()
  else throw (.leafCountMismatch self.expectedLeafCount self.actualLeafCount)

end LeafConsistencyData

namespace MerkleTree

variable {DB : Type} [Database DB]

/-- `validate_node`: the checks of a node and, recursively, its children; returns the node's hash.
The recursion runs on fuel that covers the 65 levels of nibble counts; a node reached without
fuel would sit below the terminal level. -/
def validateNode (self : MerkleTree DB) :
    (fuel : Nat) → Node → NodeKey → Option LeafConsistencyData →
      Except ConsistencyError (ValueHash × Option LeafConsistencyData)
  | 0, _, key, _ => throw (.terminalInternalNode key)
  | fuel + 1, node, key, leafData => do
    let leafData ← match node with
      | .leaf leaf => do
        let fullKeyNibbles := Nibbles.new leaf.fullKey key.nibbles.nibbleCount
        if fullKeyNibbles ≠ key.nibbles then throw (.fullKeyMismatch key leaf.fullKey)
        match leafData with
        | some leafData => some <$> leafData.insertLeaf leaf
        | none => pure none
      | .internal node => do
        let some expectedVersion := (node.childRefs.map (·.version)).max?
          | throw (.emptyInternalNode key)
        if !key.isEmpty && expectedVersion ≠ key.version then
          throw (.keyVersionMismatch key expectedVersion)
        else if key.isEmpty && expectedVersion > key.version then
          throw (.rootVersionMismatch expectedVersion)
        node.children'.foldlM (fun leafData (nibble, childRef) => do
            let some childKey := key.nibbles.push nibble | throw (.terminalInternalNode key)
            let childKey := childKey.withVersion childRef.version
            let some child := Database.tryTreeNode self.db childKey childRef.isLeaf
              | throw (.missingNode childKey childRef.isLeaf)
            let (childHash, leafData) ← validateNode self fuel child childKey leafData
            if childHash = childRef.hash then pure leafData
            else throw (.hashMismatch key nibble childRef.hash childHash))
          leafData
    let level := key.nibbles.nibbleCount * 4
    pure (node.hash self.hasher level, leafData)

/-- `verify_consistency`. -/
def verifyConsistency (self : MerkleTree DB) (version : Nat) (validateIndices : Bool) :
    Except ConsistencyError Unit := do
  let some manifest := Database.tryManifest self.db | throw (.missingVersion version)
  if version ≥ manifest.versionCount then throw (.missingVersion version)
  let some root := Database.tryRoot self.db version | throw (.missingRoot version)
  match root with
  | .empty => pure ()
  | .filled leafCount _ rootNode =>
    let rootKey := Nibbles.EMPTY.withVersion version
    let leafData := if validateIndices then some (LeafConsistencyData.new leafCount) else none
    let (_, leafData) ← self.validateNode (2 * KEY_SIZE + 1) rootNode rootKey leafData
    if let some leafData := leafData then leafData.validateCount

end MerkleTree

end ZksyncEra.MerkleTree
