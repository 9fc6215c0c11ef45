import ZksyncEra.Writes.Compression
import ZksyncEra.BasicTypes

/-!
State diff records and their compressed pubdata (`types/src/storage/writes/mod.rs`).

A record is published as its derived key (an initial write, enumeration index `0`) or its 4-byte
enumeration index (a repeated write), followed by the compressed value. The records are sorted by
address and key, the initial writes go first behind their 2-byte count, and a header carries the
compression version, the 3 low bytes of the body's length and the width of the indices. Integer
casts truncate, as `as u16` and `as u32` do.
-/

namespace ZksyncEra.Writes

open ZksyncEra.MerkleTree

/-- `BYTES_PER_ENUMERATION_INDEX`. -/
def BYTES_PER_ENUMERATION_INDEX : UInt8 := 4

/-- `BYTES_PER_DERIVED_KEY`. -/
def BYTES_PER_DERIVED_KEY : UInt8 := 32

/-- `u32::MAX`. -/
def U32_MAX : Nat := 2 ^ 32 - 1

/-- `StateDiffRecord`. -/
structure StateDiffRecord where
  /-- address state diff occurred at -/
  address : Address
  /-- storage slot key updated -/
  key : U256
  /-- `Blake2s(bytes32(address), key)` -/
  derivedKey : Vector UInt8 32
  /-- index in tree of state diff; `u64` in the source -/
  enumerationIndex : Nat
  /-- previous value -/
  initialValue : U256
  /-- updated value -/
  finalValue : U256
  deriving DecidableEq, Repr

namespace StateDiffRecord

/-- `compress`: the derived key or the 4-byte index, then the compressed value; the panic on an
index beyond `u32::MAX` is `none`. -/
def compress (self : StateDiffRecord) : Option (List UInt8) := do
  let compStateDiff ← match self.enumerationIndex with
    | 0 => some self.derivedKey.toList
    | enumerationIndex =>
      if enumerationIndex ≤ U32_MAX then some (BigEndian.encode 4 enumerationIndex) else none
  let value ← compressWithBestStrategy self.initialValue self.finalValue
  pure (compStateDiff ++ value)

/-- `is_write_initial`. -/
def isWriteInitial (self : StateDiffRecord) : Bool :=
  self.enumerationIndex == 0

/-- The order of `sort_by_key(|rec| (rec.address, rec.key))`: lexicographic, addresses and keys
compared as numbers. -/
def sortKeyLe (a b : StateDiffRecord) : Bool :=
  a.address.toNat < b.address.toNat ||
    (a.address.toNat == b.address.toNat && a.key.toNat ≤ b.key.toNat)

end StateDiffRecord

/-- `prepend_header`: the version, bytes `1..4` of the body's length as a `u32`, and the width of
the enumeration indices. -/
def prependHeader (compressedStateDiffs : List UInt8) : List UInt8 :=
  [COMPRESSION_VERSION_NUMBER] ++ (BigEndian.encode 4 compressedStateDiffs.length).drop 1 ++
    [BYTES_PER_ENUMERATION_INDEX] ++ compressedStateDiffs

/-- The loops of `compress_state_diffs` that extend the result by each compressed record. -/
def extendCompressed (res : List UInt8) (stateDiffs : List StateDiffRecord) : Option (List UInt8) :=
  stateDiffs.foldlM (fun res stateDiff => do pure (res ++ (← stateDiff.compress))) res

/-- `compress_state_diffs`: the count of initial writes as a `u16`, the compressed initial writes,
then the compressed repeated writes, each in `(address, key)` order, behind the header. -/
def compressStateDiffs (stateDiffs : List StateDiffRecord) : Option (List UInt8) := do
  -- IMPORTANT: Sorting here is determined by the order expected in the circuits.
  let stateDiffs := stateDiffs.mergeSort StateDiffRecord.sortKeyLe
  let (initialWrites, repeatedWrites) := stateDiffs.partition (·.enumerationIndex == 0)
  let res := BigEndian.encode 2 initialWrites.length
  let res ← extendCompressed res initialWrites
  let res ← extendCompressed res repeatedWrites
  pure (prependHeader res)

end ZksyncEra.Writes
