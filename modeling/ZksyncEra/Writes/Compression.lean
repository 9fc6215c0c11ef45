import ZksyncEra.Lib.BigEndian
import ZksyncEra.MerkleTree.Types

/-!
Compression of storage values for pubdata (`types/src/storage/writes/compression.rs`).

A value written to storage is published as a metadata byte followed by as few bytes as the best
of three strategies needs: the difference to the previous value, added (operation `1`) or
subtracted (`2`), or the new value itself (`3`), each in its significant bytes when they are at
most 30. When no strategy applies, the metadata byte is `0` and the 32 bytes of the new value
follow. The metadata byte holds the byte count in its high five bits and the operation in its
low three.

The boxed strategies of `default_passes` are the constructors of `CompressionMode`, with
`CompressionByteNone` as the fourth; the trait's provided methods are the catch-all cases of the
functions below. Panics of `unwrap` are `none`.
-/

namespace ZksyncEra.MerkleTree

/-- `U256::bits`: the number of significant bits. -/
def U256.bits (value : U256) : Nat := value.toNat.size

end ZksyncEra.MerkleTree

namespace ZksyncEra.Writes

open ZksyncEra.MerkleTree

/-- `COMPRESSION_VERSION_NUMBER`. -/
def COMPRESSION_VERSION_NUMBER : UInt8 := 1

/-- The implementations of the `CompressionMode` trait. -/
inductive CompressionMode where
  /-- `CompressionByteAdd`. -/
  | byteAdd (prevValue newValue : U256)
  /-- `CompressionByteSub`. -/
  | byteSub (prevValue newValue : U256)
  /-- `CompressionByteTransform`. -/
  | byteTransform (newValue : U256)
  /-- `CompressionByteNone`. -/
  | byteNone (newValue : U256)
  deriving DecidableEq, Repr

namespace CompressionMode

/-- `operation_id`. -/
def operationId : CompressionMode → Nat
  | .byteAdd .. => 1
  | .byteSub .. => 2
  | .byteTransform _ => 3
  | .byteNone _ => 0

/-- The body shared by the three `get_diff_and_size`s: the diff and its size in bytes, refused
from 31 bytes on. -/
def diffAndSize (diff : U256) : Option (U256 × Nat) :=
  -- Ceiling division
  let size := (diff.bits + 7) / 8
  if size ≥ 31 then none else some (diff, size)

/-- `get_diff_and_size`. -/
def getDiffAndSize : CompressionMode → Option (U256 × Nat)
  -- `new_value.overflowing_sub(prev_value).0`
  | .byteAdd prevValue newValue => diffAndSize (newValue - prevValue)
  -- `prev_value.overflowing_sub(new_value).0`
  | .byteSub prevValue newValue => diffAndSize (prevValue - newValue)
  | .byteTransform newValue => diffAndSize newValue
  | .byteNone _ => none

/-- `output_size`. -/
def outputSize : CompressionMode → Option Nat
  | .byteNone _ => some 32
  | self => self.getDiffAndSize.map (·.2)

/-- `compress_value_only`: the last `size` bytes of the diff's big-endian bytes. -/
def compressValueOnly : CompressionMode → Option (List UInt8)
  | .byteNone newValue => some newValue.toBigEndian.toList
  | self => do
    let (diff, size) ← self.getDiffAndSize
    let buffer := diff.toBigEndian.toList
    pure (buffer.drop (32 - size))

/-- `metadata_byte`: the output size in the high five bits, the operation in the low three,
truncated to a byte. -/
def metadataByte (outputSize operationId : Nat) : UInt8 :=
  UInt8.ofNat ((outputSize <<< 3) ||| operationId)

/-- `compress_extended`: the metadata byte, then the compressed value. `CompressionByteNone`
leaves its metadata byte zero. -/
def compressExtended : CompressionMode → Option (List UInt8)
  | .byteNone newValue => some (0 :: newValue.toBigEndian.toList)
  | self => self.compressValueOnly.bind fun compressedValue => do
    let outputSize ← self.outputSize
    pure (metadataByte outputSize self.operationId :: compressedValue)

end CompressionMode

/-- `default_passes`. -/
def defaultPasses (prevValue newValue : U256) : List CompressionMode :=
  [.byteAdd prevValue newValue, .byteSub prevValue newValue, .byteTransform newValue]

/-- `compress_with_best_strategy`: the shortest extended compression of the passes, the first of
equally short ones (`min_by_key`), or the uncompressed new value. -/
def compressWithBestStrategy (prevValue newValue : U256) : Option (List UInt8) :=
  let compressors := defaultPasses prevValue newValue
  match (compressors.filterMap CompressionMode.compressExtended).argmin List.length with
  | some bytes => some bytes
  | none => (CompressionMode.byteNone newValue).compressExtended

end ZksyncEra.Writes
