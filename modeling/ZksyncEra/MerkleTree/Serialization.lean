import ZksyncEra.MerkleTree.Utils
import ZksyncEra.MerkleTree.Types
import ZksyncEra.Lib.BigEndian
import ZksyncEra.Lib.Leb128

/-!
The storage format of tree nodes, roots and the manifest (`storage/serialization.rs`), with the
deserialization errors of `errors.rs`.

A buffer is a list of bytes; `serialize` returns the bytes it appends. A deserializer that reads
from `&mut &[u8]` returns the bytes it leaves. `U256` keys are written big-endian; an `H256` hash
is the `BitVec 256` of its bytes read big-endian, so its bytes are the same encoding. Lengths,
versions and counts are `Nat`, written and read by the functions of the third-party `leb128` crate,
which are a parameter `leb128 : Leb128.Codec` of the format; any error of its reader (an early end
of the bytes, or `Overflow`) is `DeserializeErrorKind::Leb128`.
-/

namespace ZksyncEra.MerkleTree

open BigEndian

variable (leb128 : Leb128.Codec)

/-- `HASH_SIZE`. -/
def HASH_SIZE : Nat := 32

/-- `DeserializeErrorKind`. -/
inductive DeserializeErrorKind where
  | unexpectedEof
  | leb128
  | utf8
  | emptyInternalNode
  | invalidChildKind
  | leftovers
  | missingTag (name : String)
  | unknownTag (key : String)
  | malformedTag (name : String)
  deriving DecidableEq, Repr

/-- The `ErrorContext`s that deserialization adds. -/
inductive ErrorContext where
  | childRefHash
  | childrenMask
  | leafCount
  | leafIndex
  | version
  deriving DecidableEq, Repr

/-- `DeserializeError`: the kind, and the contexts from the most specific one. -/
structure DeserializeError where
  kind : DeserializeErrorKind
  contexts : List ErrorContext
  deriving DecidableEq, Repr

/-- `impl From<DeserializeErrorKind> for DeserializeError`. -/
def DeserializeErrorKind.into (kind : DeserializeErrorKind) : DeserializeError := ⟨kind, []⟩

/-- `DeserializeErrorKind::with_context`. -/
def DeserializeErrorKind.withContext (kind : DeserializeErrorKind) (context : ErrorContext) :
    DeserializeError :=
  ⟨kind, [context]⟩

/-- `leb128::read::unsigned` on a slice, its error mapped by `onError`. -/
def readLeb128 {E : Type} (bytes : List UInt8) (onError : E) : Except E (Nat × List UInt8) :=
  match leb128.read bytes with
  | some result => .ok result
  | none => .error onError

/-- `Key::from_big_endian` and `ValueHash::from_slice`. -/
def U256.fromBigEndian (bytes : List UInt8) : U256 := BitVec.ofNat 256 (decode bytes)

/-- The bytes of a key (`to_big_endian`) or of a hash (`as_bytes`). -/
def U256.bytes (value : U256) : List UInt8 := value.toBigEndian.toList

/-! ### Leaves -/

/-- `LeafNode::deserialize`. -/
def LeafNode.deserialize (bytes : List UInt8) (strict : Bool) : Except DeserializeError LeafNode := do
  if bytes.length < KEY_SIZE + HASH_SIZE then
    throw DeserializeErrorKind.unexpectedEof.into
  let fullKey := U256.fromBigEndian (bytes.take KEY_SIZE)
  let valueHash := U256.fromBigEndian ((bytes.drop KEY_SIZE).take HASH_SIZE)
  let bytes := bytes.drop (KEY_SIZE + HASH_SIZE)
  let (leafIndex, bytes) ←
    readLeb128 leb128 bytes (DeserializeErrorKind.leb128.withContext .leafIndex)
  if strict && !bytes.isEmpty then
    throw DeserializeErrorKind.leftovers.into
  pure ⟨fullKey, valueHash, leafIndex⟩

/-- `LeafNode::serialize`. -/
def LeafNode.serialize (self : LeafNode) : List UInt8 :=
  U256.bytes self.fullKey ++ U256.bytes self.valueHash ++ leb128.write self.leafIndex

/-! ### Internal nodes -/

/-- `ChildKind`. -/
inductive ChildKind where
  | none
  | internal
  | leaf
  deriving DecidableEq, Repr

namespace ChildKind

/-- `ChildKind::MASK`. -/
def MASK : Nat := 3

/-- The discriminant `as u32`. -/
def toNat : ChildKind → Nat
  | .none => 0
  | .internal => 1
  | .leaf => 2

/-- `ChildKind::deserialize`. -/
def deserialize (bitmapChunk : Nat) : Except DeserializeError ChildKind :=
  match bitmapChunk with
  | 0 => .ok .none
  | 1 => .ok .internal
  | 2 => .ok .leaf
  | _ => .error DeserializeErrorKind.invalidChildKind.into

end ChildKind

namespace ChildRef

/-- `ChildRef::deserialize`: the hash, then the version. -/
def deserialize (buffer : List UInt8) (isLeaf : Bool) :
    Except DeserializeError (ChildRef × List UInt8) := do
  if buffer.length < HASH_SIZE then
    throw (DeserializeErrorKind.unexpectedEof.withContext .childRefHash)
  let hash := U256.fromBigEndian (buffer.take HASH_SIZE)
  let (version, buffer) ←
    readLeb128 leb128 (buffer.drop HASH_SIZE) (DeserializeErrorKind.leb128.withContext .version)
  pure (⟨hash, version, isLeaf⟩, buffer)

/-- `ChildRef::serialize`: whether the child is a leaf goes to the node's bitmap. -/
def serialize (self : ChildRef) : List UInt8 := U256.bytes self.hash ++ leb128.write self.version

/-- `ChildRef::kind`. -/
def kind (self : ChildRef) : ChildKind := if self.isLeaf then .leaf else .internal

end ChildRef

namespace InternalNode

/-- The loop of `InternalNode::deserialize` over the nibbles, two bits of the bitmap a nibble. -/
def deserializeChildren : List Nat → Nat → List UInt8 → InternalNode →
    Except DeserializeError (InternalNode × List UInt8)
  | [], _, bytes, this => .ok (this, bytes)
  | i :: rest, bitmap, bytes, this => do
    let (this, bytes) ← match ← ChildKind.deserialize (bitmap &&& ChildKind.MASK) with
      | .none => pure (this, bytes)
      | .internal => do
        let (childRef, bytes) ← ChildRef.deserialize leb128 bytes false
        pure (this.insertChildRef i.toUInt8 childRef, bytes)
      | .leaf => do
        let (childRef, bytes) ← ChildRef.deserialize leb128 bytes true
        pure (this.insertChildRef i.toUInt8 childRef, bytes)
    deserializeChildren rest (bitmap >>> 2) bytes this

/-- `InternalNode::deserialize`: a little-endian `u32` bitmap, then the child references in the
order of their nibbles. -/
def deserialize (bytes : List UInt8) (strict : Bool) : Except DeserializeError InternalNode := do
  if bytes.length < 4 then
    throw (DeserializeErrorKind.unexpectedEof.withContext .childrenMask)
  let bitmap := decode (bytes.take 4).reverse
  if bitmap = 0 then
    throw DeserializeErrorKind.emptyInternalNode.into
  let (this, bytes) ← deserializeChildren leb128 (List.range CHILD_COUNT.toNat) bitmap (bytes.drop 4) empty
  if strict && !bytes.isEmpty then
    throw DeserializeErrorKind.leftovers.into
  pure this

/-- The bitmap of `InternalNode::serialize`: the kind of the child at nibble `i` in bits `2 * i`
and `2 * i + 1`. -/
def bitmap (self : InternalNode) : Nat :=
  self.children'.foldl (fun bitmap (i, childRef) => bitmap ||| childRef.kind.toNat <<< (2 * i.toNat)) 0

/-- `InternalNode::serialize`. -/
def serialize (self : InternalNode) : List UInt8 :=
  (encode 4 self.bitmap).reverse ++ self.childRefs.flatMap (ChildRef.serialize leb128)

end InternalNode

/-! ### Roots -/

/-- `Node::serialize`. -/
def Node.serialize : Node → List UInt8
  | .internal node => node.serialize leb128
  | .leaf node => node.serialize leb128

/-- `Root::deserialize`. A root with one leaf is read as a leaf first, and as an internal node
if that fails. -/
def Root.deserialize (bytes : List UInt8) (strict : Bool) : Except DeserializeError Root := do
  let (leafCount, bytes) ← readLeb128 leb128 bytes (DeserializeErrorKind.leb128.withContext .leafCount)
  match leafCount with
  | 0 => pure .empty
  | 1 =>
    let node ← match LeafNode.deserialize leb128 bytes strict with
      | .ok found => pure (Node.leaf found)
      | .error _ => Node.internal <$> InternalNode.deserialize leb128 bytes strict
    pure (.filled 1 Nat.one_pos node)
  | leafCount + 2 =>
    let node ← InternalNode.deserialize leb128 bytes strict
    pure (.filled (leafCount + 2) (Nat.succ_pos _) (.internal node))

/-- `Root::serialize`. -/
def Root.serialize : Root → List UInt8
  | .empty => leb128.write 0
  | .filled leafCount _ node => leb128.write leafCount ++ node.serialize leb128

/-! ### The manifest -/

/-- `str::parse::<usize>`: an optional `+`, then decimal digits. -/
def parseUsize (value : String) : Option Nat :=
  let digits := match value.toList with
    | '+' :: rest => rest
    | chars => chars
  if digits ≠ [] ∧ digits.all Char.isDigit then some (Nat.ofDigitChars 10 digits 0) else none

/-- `str::parse::<bool>`. -/
def parseBool (value : String) : Option Bool :=
  if value = "true" then some true else if value = "false" then some false else none

/-- `str::strip_prefix`. -/
def stripPrefix (s pre : String) : Option String :=
  if pre.toList.isPrefixOf s.toList then some (String.ofList (s.toList.drop pre.length)) else none

namespace TreeTags

/-- `TreeTags::serialize_str`: the byte length, then the UTF-8 bytes. -/
def serializeStr (s : String) : List UInt8 :=
  leb128.write s.utf8ByteSize ++ s.toUTF8.data.toList

/-- `TreeTags::deserialize_str`. -/
def deserializeStr (bytes : List UInt8) : Except DeserializeErrorKind (String × List UInt8) := do
  let (strLen, bytes) ← readLeb128 leb128 bytes DeserializeErrorKind.leb128
  if bytes.length < strLen then
    throw .unexpectedEof
  match String.fromUTF8? (bytes.take strLen).toByteArray with
  | some s => pure (s, bytes.drop strLen)
  | none => throw .utf8

/-- The tags read so far by `TreeTags::deserialize`. -/
structure Parsed where
  architecture : Option String
  hasher : Option String
  depth : Option Nat
  isRecovering : Bool
  custom : HashMap String String

/-- `TreeTags::deserialize` on one tag. -/
def Parsed.record (self : Parsed) (key value : String) : Except DeserializeError Parsed :=
  if key = "architecture" then .ok { self with architecture := some value }
  else if key = "hasher" then .ok { self with hasher := some value }
  else if key = "depth" then
    match parseUsize value with
    | some parsed => .ok { self with depth := some parsed }
    | none => .error (DeserializeErrorKind.malformedTag "depth").into
  else if key = "is_recovering" then
    match parseBool value with
    | some parsed => .ok { self with isRecovering := parsed }
    | none => .error (DeserializeErrorKind.malformedTag "is_recovering").into
  else
    match stripPrefix key "custom." with
    | some customKey => .ok { self with custom := self.custom.insert customKey value }
    | none => .error (DeserializeErrorKind.unknownTag key).into

/-- The loop of `TreeTags::deserialize` over `tag_count` key-value pairs. -/
def readTags : Nat → Parsed → List UInt8 → Except DeserializeError (Parsed × List UInt8)
  | 0, parsed, bytes => .ok (parsed, bytes)
  | count + 1, parsed, bytes => do
    let (key, bytes) ← (deserializeStr leb128 bytes).mapError DeserializeErrorKind.into
    let (value, bytes) ← (deserializeStr leb128 bytes).mapError DeserializeErrorKind.into
    let parsed ← parsed.record key value
    readTags count parsed bytes

/-- `Option::ok_or` of a required tag. -/
def required {T : Type} (tag : Option T) (name : String) : Except DeserializeError T :=
  match tag with
  | some value => .ok value
  | none => .error (DeserializeErrorKind.missingTag name).into

/-- `TreeTags::deserialize`: the number of tags, then the length-prefixed keys and values. -/
def deserialize (bytes : List UInt8) : Except DeserializeError (TreeTags × List UInt8) := do
  let (tagCount, bytes) ← readLeb128 leb128 bytes DeserializeErrorKind.leb128.into
  let (parsed, bytes) ← readTags leb128 tagCount ⟨none, none, none, false, ∅⟩ bytes
  let architecture ← required parsed.architecture "architecture"
  let hasher ← required parsed.hasher "hasher"
  let depth ← required parsed.depth "depth"
  pure (⟨architecture, depth, hasher, parsed.isRecovering, parsed.custom⟩, bytes)

/-- `TreeTags::serialize`: the custom tags in the order of the map, their keys prefixed with
`custom.`. -/
def serialize (self : TreeTags) : List UInt8 :=
  let entryCount := 3 + (if self.isRecovering then 1 else 0) + self.custom.entries.length
  leb128.write entryCount ++
    serializeStr leb128 "architecture" ++ serializeStr leb128 self.architecture ++
    serializeStr leb128 "depth" ++ serializeStr leb128 (toString self.depth) ++
    serializeStr leb128 "hasher" ++ serializeStr leb128 self.hasher ++
    (if self.isRecovering then serializeStr leb128 "is_recovering" ++ serializeStr leb128 "true"
      else []) ++
    self.custom.entries.flatMap fun entry =>
      serializeStr leb128 ("custom." ++ entry.1) ++ serializeStr leb128 entry.2

end TreeTags

/-- `Manifest::deserialize`: the version count, then the tags if any bytes are left. -/
def Manifest.deserialize (bytes : List UInt8) : Except DeserializeError Manifest := do
  let (versionCount, bytes) ← readLeb128 leb128 bytes DeserializeErrorKind.leb128.into
  let tags ← if bytes.isEmpty then pure none
    else (fun result => some result.1) <$> TreeTags.deserialize leb128 bytes
  pure ⟨versionCount, tags⟩

/-- `Manifest::serialize`. -/
def Manifest.serialize (self : Manifest) : List UInt8 :=
  leb128.write self.versionCount ++ (self.tags.map (TreeTags.serialize leb128)).getD []

/-! ### Node keys in the database (`types/internal.rs`) -/

/-- `NodeKey::to_db_key`: the `u64` version in 8 big-endian bytes, the nibble count in a byte,
then the bytes that hold the nibbles. -/
def NodeKey.toDbKey (self : NodeKey) : List UInt8 :=
  let nibblesByteLen := (self.nibbles.nibbleCount + 1) / 2
  encode 8 self.version ++ [self.nibbles.nibbleCount.toUInt8] ++
    self.nibbles.bytes.toList.take nibblesByteLen

/-- `NodeKey::from_db_key`; a failed assertion is `none`. -/
def NodeKey.fromDbKey (bytes : List UInt8) : Option NodeKey :=
  if bytes.length < 9 then none
  else
    let version := decode (bytes.take 8)
    let nibbleCount := (bytes.getD 8 0).toNat
    if nibbleCount > 2 * KEY_SIZE then none
    else
      let nibblesByteLen := (nibbleCount + 1) / 2
      if nibblesByteLen ≠ bytes.length - 9 then none
      else
        -- `nibbles[..nibbles_byte_len].copy_from_slice(&bytes[9..])`
        let nibbles : NibblesBytes :=
          Vector.ofFn fun j => if j.val < nibblesByteLen then bytes.getD (9 + j.val) 0 else 0
        some ((Nibbles.fromParts nibbles nibbleCount).withVersion version)

end ZksyncEra.MerkleTree
