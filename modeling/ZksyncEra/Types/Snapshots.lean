import ZksyncEra.Lib.Checked

/-!
Chunks of the hashed-key space, used by snapshot creation and recovery
(`zksync_types::snapshots`).

`U256` and `H256` values are 256-bit words. `u256_to_h256` writes a word as 32 big-endian bytes,
so that the bytewise order of `H256`s is the order of the words; it is the identity here. The
assertions, and `U256`'s `+`, `-` and `*`, which panic on overflow, give `none`.
-/

namespace ZksyncEra.Snapshots

/-- `U256::MAX`. -/
def U256_MAX : BitVec 256 := BitVec.allOnes 256

/-- `uniform_hashed_keys_chunk`: the hashed keys `start..=end` of chunk `chunkId` among
`chunkCount`. -/
def uniformHashedKeysChunk (chunkId chunkCount : UInt64) : Option (BitVec 256 × BitVec 256) :=
  if ¬ chunkCount > 0 then none
  else if ¬ chunkId < chunkCount then none
  else do
    let stride := U256_MAX / BitVec.ofNat 256 chunkCount.toNat
    let (stride, strideMinusOne) ←
      if stride < U256_MAX then do
        let stride ← Checked.add stride 1
        let strideMinusOne ← Checked.sub stride 1
        pure (stride, strideMinusOne)
      else
        -- `stride` is really `1 << 256 == U256::MAX + 1`
        pure (stride, stride)
    let start ← Checked.mul stride (BitVec.ofNat 256 chunkId.toNat)
    let (end_, isOverflow) := Checked.overflowingAdd strideMinusOne start
    let end_ := if isOverflow then U256_MAX else end_
    pure (start, end_)

end ZksyncEra.Snapshots
