import ZksyncEra.MerkleTree.Utils

/-!
Basic and internal types of the AR16MT tree (`merkle_tree/src/types`): keys, entries and
logs, nibble sequences and node keys, leaf and internal nodes, roots and the manifest.

Keys and hashes are 256-bit words. `HashMap`s are association lists; their iteration order is
unspecified in the source and is the list order here. Leaf indices, versions and counters are
`u64` counters in the source and natural numbers here (no modelled path comes near overflow).
-/

namespace ZksyncEra.MerkleTree

/-- Rust's `HashMap<K, V>`: a finite map with distinct keys. -/
abbrev HashMap (K V : Type) := AList fun _ : K => V

/-- `U256`, four little-endian 64-bit limbs. -/
abbrev U256 := BitVec 256

/-- `H256`. -/
abbrev H256 := BitVec 256

/-- Key stored in the tree. -/
abbrev Key := U256

/-- Hash type of values and intermediate nodes in the tree. -/
abbrev ValueHash := H256

/-- Size of a (leaf) tree key in bytes. -/
def KEY_SIZE : Nat := 32

/-- Depth of the tree (= number of bits in `KEY_SIZE`). -/
def TREE_DEPTH : Nat := KEY_SIZE * 8

/-- The limb `key.0[index]`. -/
def U256.limb (key : U256) (index : Nat) : UInt64 :=
  UInt64.ofNat (key.toNat >>> (64 * index))

/-- `U256::bit`: the bit of weight `2 ^ index`. -/
def U256.bit (key : U256) (index : Nat) : Bool :=
  key.toNat.testBit index

/-- `U256::to_big_endian`. -/
def U256.toBigEndian (key : U256) : Vector UInt8 32 :=
  Vector.ofFn fun j => UInt8.ofNat (key.toNat >>> (8 * (31 - j.val)))

/-! ### Entries and logs -/

/-- Entry in a Merkle tree associated with a key. -/
structure TreeEntry where
  key : Key
  /-- Value associated with the key. -/
  value : ValueHash
  /-- Enumeration index of the key. -/
  leafIndex : Nat
  deriving DecidableEq, Repr

/-- Instruction to read or write a tree value at a certain key. -/
inductive TreeInstruction where
  | read (key : Key)
  | write (entry : TreeEntry)
  deriving DecidableEq, Repr

def TreeInstruction.key : TreeInstruction → Key
  | .read key => key
  | .write entry => entry.key

/-- Information about the effect of a `TreeInstruction`. -/
inductive TreeLogEntry where
  | inserted
  | updated (leafIndex : Nat) (previousValue : ValueHash)
  | read (leafIndex : Nat) (value : ValueHash)
  | readMissingKey
  deriving DecidableEq, Repr

/-- Output of inserting a block of entries into a Merkle tree. -/
structure BlockOutput where
  rootHash : ValueHash
  leafCount : Nat
  logs : List TreeLogEntry
  deriving DecidableEq, Repr

/-! ### Nibbles and node keys -/

abbrev NibblesBytes := Vector UInt8 32

/-- The bound of the first byte, named so that definitions reading that byte share it. -/
theorem zero_lt_nibblesBytes : 0 < 32 := by decide

/-- Unversioned key (a sequence of nibbles) in a radix-16 Merkle tree. -/
structure Nibbles where
  nibbleCount : Nat
  bytes : NibblesBytes
  deriving DecidableEq, Repr

namespace Nibbles

def EMPTY : Nibbles := ⟨0, Vector.replicate 32 0⟩

/-- `Nibbles::nibble`; `index < 64` is debug-asserted. -/
def nibble (key : Key) (index : Nat) : UInt8 :=
  -- Since the `Key` layout is little-endian, we reverse indexing of `u64`:
  -- nibbles 0..=15 are in the final `u64`, and the 0th nibble needs the largest shift.
  let u64Idx := 3 - index / 16
  let shiftInU64 := (16 - 1 - index % 16) * 4
  ((key.limb u64Idx >>> shiftInU64.toUInt64) &&& 0x0f).toUInt8

/-- `Nibbles::new`; `nibble_count <= 64` is debug-asserted. -/
def new (key : Key) (nibbleCount : Nat) : Nibbles :=
  let bytes := key.toBigEndian
  -- Unused bytes (and, if appropriate, the unused nibble in the last used byte) are zeroized
  -- so that equality on `Nibbles` is equality of nibble sequences.
  let bytes := bytes.mapIdx fun i byte =>
    if nibbleCount % 2 = 1 ∧ i = nibbleCount / 2 then byte &&& 0xf0 else byte
  let meaningfulBytes := (nibbleCount + 1) / 2
  let bytes := bytes.mapIdx fun i byte => if i < meaningfulBytes then byte else 0
  ⟨nibbleCount, bytes⟩

def fromParts (bytes : NibblesBytes) (nibbleCount : Nat) : Nibbles :=
  ⟨nibbleCount, bytes⟩

/-- The byte at `index`; every index the algorithms read is below 32. -/
def byteAt (bytes : NibblesBytes) (index : Nat) : UInt8 :=
  (bytes[index]?).getD 0

/-- `Nibbles::split_last`: the parent sequence and the last nibble, `none` if empty. -/
def splitLast (self : Nibbles) : Option (Nibbles × UInt8) :=
  if self.nibbleCount = 0 then none
  else
    let lastByteIdx := (self.nibbleCount - 1) / 2
    let lastByte := byteAt self.bytes lastByteIdx
    let (truncatedBytes, lastNibble) :=
      if self.nibbleCount % 2 = 1 then (self.bytes.setIfInBounds lastByteIdx 0, lastByte >>> 4)
      else (self.bytes.setIfInBounds lastByteIdx (lastByte &&& 0xf0), lastByte &&& 15)
    some (⟨self.nibbleCount - 1, truncatedBytes⟩, lastNibble)

/-- `Nibbles::push`: appends a nibble, `none` if the sequence is full. -/
def push (self : Nibbles) (nibble : UInt8) : Option Nibbles :=
  if self.nibbleCount = KEY_SIZE * 2 then none
  else
    let lastByteIdx := self.nibbleCount / 2
    let childCount := self.nibbleCount + 1
    let bytes :=
      if childCount % 2 = 0 then
        -- The new `nibble` is 4 lower bits
        self.bytes.setIfInBounds lastByteIdx (byteAt self.bytes lastByteIdx + nibble)
      else
        -- The new `nibble` is 4 upper bits of a new byte
        self.bytes.setIfInBounds lastByteIdx (nibble <<< 4)
    some ⟨childCount, bytes⟩

/-- `Nibbles::common_prefix`: cut at the first byte where the sequences differ. -/
def commonPrefix (self other : Nibbles) : Nibbles :=
  match (List.range ((self.nibbleCount + 1) / 2)).find? fun i =>
      byteAt self.bytes i ≠ byteAt other.bytes i with
  | none => self
  | some i =>
    if byteAt self.bytes i &&& 0xf0 = byteAt other.bytes i &&& 0xf0 then
      -- The first nibble of the byte matches.
      ⟨i * 2 + 1, self.bytes.mapIdx fun j byte =>
        if j = i then byte &&& 0xf0 else if j > i then 0 else byte⟩
    else
      ⟨i * 2, self.bytes.mapIdx fun j byte => if j ≥ i then 0 else byte⟩

end Nibbles

/-- Versioned key in a radix-16 Merkle tree. -/
structure NodeKey where
  version : Nat
  nibbles : Nibbles
  deriving DecidableEq, Repr

def Nibbles.withVersion (self : Nibbles) (version : Nat) : NodeKey :=
  ⟨version, self⟩

def NodeKey.empty (version : Nat) : NodeKey :=
  ⟨version, Nibbles.EMPTY⟩

def NodeKey.isEmpty (self : NodeKey) : Bool :=
  self.nibbles.nibbleCount == 0

/-! ### Nodes -/

/-- Leaf node of the tree. -/
structure LeafNode where
  fullKey : Key
  valueHash : ValueHash
  leafIndex : Nat
  deriving DecidableEq, Repr

def LeafNode.new (entry : TreeEntry) : LeafNode :=
  ⟨entry.key, entry.value, entry.leafIndex⟩

def LeafNode.updateFrom (self : LeafNode) (entry : TreeEntry) : LeafNode :=
  { self with valueHash := entry.value, leafIndex := entry.leafIndex }

/-- Reference to a child in an `InternalNode`. -/
structure ChildRef where
  hash : ValueHash
  version : Nat
  isLeaf : Bool
  deriving DecidableEq, Repr

/-- A reference to a leaf with the hash left blank (it is computed later). -/
def ChildRef.leaf (version : Nat) : ChildRef := ⟨0, version, true⟩

def ChildRef.internal (version : Nat) : ChildRef := ⟨0, version, false⟩

/-- Cache of the hashes inside an internal node's 4-level binary subtree (`None` stands for an
empty subtree); used only in the full operation mode. -/
structure InternalNodeCache where
  level1 : Vector (Option ValueHash) 2
  level2 : Vector (Option ValueHash) 4
  level3 : Vector (Option ValueHash) 8
  deriving DecidableEq, Repr

/-- Internal node in AR16MT containing up to 16 children. -/
structure InternalNode where
  children : SmallMap ChildRef
  cache : Option InternalNodeCache
  deriving DecidableEq

namespace InternalNode

/-- Number of children in an internal node (= tree radix). -/
def CHILD_COUNT : UInt8 := 16

/-- `InternalNode::default`. -/
def empty : InternalNode := ⟨SmallMap.empty, none⟩

/-- `Clone` drops the cache. -/
def clone (self : InternalNode) : InternalNode := ⟨self.children, none⟩

def childCount (self : InternalNode) : Nat := self.children.len

def childRef (self : InternalNode) (nibble : UInt8) : Option ChildRef :=
  self.children.get nibble

def insertChildRef (self : InternalNode) (nibble : UInt8) (childRef : ChildRef) : InternalNode :=
  { self with children := self.children.insert nibble childRef }

/-- Mutation through `child_ref_mut(nibble).unwrap()`: `none` when the reference is missing. -/
def updateChildRef (self : InternalNode) (nibble : UInt8) (f : ChildRef → ChildRef) :
    Option InternalNode := do
  let childRef ← self.childRef nibble
  pure (self.insertChildRef nibble (f childRef))

def children' (self : InternalNode) : List (UInt8 × ChildRef) := self.children.iter

def childRefs (self : InternalNode) : List ChildRef := self.children.values

/-- `last_child_ref`; persisted internal nodes are never empty. -/
def lastChildRef (self : InternalNode) : Option (UInt8 × ChildRef) := self.children.last

def childHashes (self : InternalNode) : Vector (Option ValueHash) 16 :=
  self.children.iter.foldl (fun hashes (nibble, childRef) =>
    hashes.setIfInBounds nibble.toNat (some childRef.hash)) (Vector.replicate 16 none)

end InternalNode

/-- Tree node (either a leaf or an internal node). -/
inductive Node where
  | internal (node : InternalNode)
  | leaf (leaf : LeafNode)
  deriving DecidableEq

def Node.isLeaf : Node → Bool
  | .internal _ => false
  | .leaf _ => true

/-- Root node of the tree with the number of leaves. -/
inductive Root where
  /-- Root for an empty tree. -/
  | empty
  /-- Root for a tree with at least one leaf (`NonZeroU64` leaf count). -/
  | filled (leafCount : Nat) (leafCount_pos : 0 < leafCount) (node : Node)
  deriving DecidableEq

/-- `Root::new`; `NonZeroU64::new(leaf_count).unwrap()` panics on zero. -/
def Root.new (leafCount : Nat) (node : Node) : Option Root :=
  if positive : 0 < leafCount then some (.filled leafCount positive node) else none

def Root.leafCount : Root → Nat
  | .empty => 0
  | .filled leafCount _ _ => leafCount

/-- `Clone` for nodes: an internal node loses its cache. -/
def Node.clone : Node → Node
  | .internal node => .internal node.clone
  | .leaf l => .leaf l

/-- `Clone` for roots. -/
def Root.clone : Root → Root
  | .empty => .empty
  | .filled leafCount positive node => .filled leafCount positive node.clone

@[simp] theorem InternalNode.children_clone (node : InternalNode) :
    node.clone.children = node.children := rfl

@[simp] theorem InternalNode.childRef_clone (node : InternalNode) (nibble : UInt8) :
    node.clone.childRef nibble = node.childRef nibble := rfl

@[simp] theorem Node.isLeaf_clone (node : Node) : node.clone.isLeaf = node.isLeaf := by
  cases node <;> rfl

@[simp] theorem Node.clone_clone (node : Node) : node.clone.clone = node.clone := by
  cases node <;> rfl

@[simp] theorem Root.leafCount_clone (root : Root) : root.clone.leafCount = root.leafCount := by
  cases root <;> rfl

/-! ### Manifest -/

/-- Tags associated with a tree. -/
structure TreeTags where
  architecture : String
  depth : Nat
  hasher : String
  isRecovering : Bool
  /-- Custom / user-defined tags. -/
  custom : HashMap String String

def TreeTags.ARCHITECTURE : String := "AR16MT"

/-- Version-independent information about the tree. -/
structure Manifest where
  /-- Number of tree versions stored in the database. -/
  versionCount : Nat
  tags : Option TreeTags

instance : Inhabited Manifest := ⟨⟨0, none⟩⟩

def Manifest.recoveredVersion (self : Manifest) : Option Nat := do
  let tags ← self.tags
  if tags.isRecovering then
    if self.versionCount ≥ 1 then some (self.versionCount - 1) else none
  else none

end ZksyncEra.MerkleTree
