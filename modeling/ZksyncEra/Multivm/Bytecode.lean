import ZksyncEra.Lib.BigEndian
import ZksyncEra.Lib.Chunks

/-!
The dictionary compression of EraVM bytecodes (`multivm/src/utils/bytecode.rs`), with the
bytecode validation it starts with (`basic_types/src/bytecode.rs`) and the decoder of its tests.

The bytecode is cut into 8-byte chunks, read as big-endian `u64` values. A dictionary of the
distinct chunks, the most frequent first, is written after its length, and each chunk is then
replaced by its two-byte index in the dictionary.

The `HashMap`s are `AList`s; the statistic is iterated in the order of its entries, one of the
orders a `HashMap` may give, and it is sorted by a key that no two entries share. The casts
`as u16` of the dictionary length and of the indices are the truncation `encode 2` makes. An
`unwrap` that fails, and a slice index out of range in the decoder, are `none`.
-/

namespace ZksyncEra.Multivm

/-- `MAX_BYTECODE_LENGTH_IN_WORDS`. -/
def MAX_BYTECODE_LENGTH_IN_WORDS : Nat := 2 ^ 16 - 1

/-- `MAX_BYTECODE_LENGTH_BYTES`. -/
def MAX_BYTECODE_LENGTH_BYTES : Nat := MAX_BYTECODE_LENGTH_IN_WORDS * 32

/-- `InvalidBytecodeError`. -/
inductive InvalidBytecodeError where
  | bytecodeTooLong (length max : Nat)
  | bytecodeLengthIsNotDivisibleBy32
  | bytecodeLengthInWordsIsEven
  deriving DecidableEq, Repr

/-- `validate_bytecode`: at most `MAX_BYTECODE_LENGTH_BYTES` bytes, in an odd number of 32-byte
words. -/
def validateBytecode (code : List UInt8) : Except InvalidBytecodeError Unit := do
  let bytecodeLen := code.length
  if bytecodeLen > MAX_BYTECODE_LENGTH_BYTES then
    throw (.bytecodeTooLong bytecodeLen MAX_BYTECODE_LENGTH_BYTES)
  if bytecodeLen % 32 ≠ 0 then
    throw .bytecodeLengthIsNotDivisibleBy32
  let bytecodeLenWords := bytecodeLen / 32
  if bytecodeLenWords % 2 = 0 then
    throw .bytecodeLengthInWordsIsEven
  pure ()

/-- `FailedToCompressBytecodeError`. -/
inductive FailedToCompressBytecodeError where
  | dictionaryOverflow
  | invalidBytecode (error : InvalidBytecodeError)
  deriving DecidableEq, Repr

/-- `u16::MAX`. -/
def U16_MAX : Nat := 2 ^ 16 - 1

/-- The order of Rust tuples of two integers: lexicographic. -/
def lexLe (a b : Nat × Nat) : Bool :=
  a.1 < b.1 || (a.1 == b.1 && a.2 ≤ b.2)

/-- The statistic of the chunks: the number of occurrences and the first position of each. -/
abbrev Statistic := AList fun _ : Nat => Nat × Nat

/-- `statistic.entry(chunk).or_insert((0, position)).0 += 1`. -/
def countChunk (statistic : Statistic) (position chunk : Nat) : Statistic :=
  match statistic.lookup chunk with
  | some (count, first) => statistic.insert chunk (count + 1, first)
  | none => statistic.insert chunk (0 + 1, position)

/-- `compress_to_bytes`: the dictionary length, the dictionary, and the index of each chunk. -/
def compressToBytes (code : List UInt8) :
    Option (Except FailedToCompressBytecodeError (List UInt8)) := ExceptT.run do
  match validateBytecode code with
  | .error error => throw (.invalidBytecode error)
  | .ok () => pure ()
  -- Count the number of occurrences of each chunk.
  let statistic := (code.chunks 8).zipIdx.foldl
    (fun statistic (chunkBytes, position) =>
      countChunk statistic position (BigEndian.decode chunkBytes)) ∅
  let statisticSortedByValue := statistic.entries.mergeSort fun x y => lexLe x.2 y.2
  -- The dictionary size is limited by 2^16 - 1,
  if statisticSortedByValue.length > U16_MAX then
    throw .dictionaryOverflow
  -- Fill the dictionary with the most popular chunks.
  let dictionary : AList fun _ : Nat => Nat := statisticSortedByValue.reverse.foldl
    (fun dictionary entry => dictionary.insert entry.1 (dictionary.entries.length % 2 ^ 16)) ∅
  let encodedData ← ExceptT.lift ((code.chunks 8).mapM fun chunkBytes =>
    (dictionary.lookup (BigEndian.decode chunkBytes)).map (BigEndian.encode 2))
  let entries := (dictionary.entries.map fun entry => (entry.2, entry.1)).mergeSort
    fun x y => lexLe x y
  pure (BigEndian.encode 2 dictionary.entries.length ++
    (entries.map fun entry => BigEndian.encode 8 entry.2).flatten ++ encodedData.flatten)

/-- `decompress_bytecode` of the tests: read the dictionary, then look each index up. -/
def decompressBytecode (rawCompressedBytecode : List UInt8) : Option (List UInt8) := do
  if rawCompressedBytecode.length < 2 then none
  let dictionaryLen := BigEndian.decode (rawCompressedBytecode.take 2)
  let dictionary ← (List.range dictionaryLen).mapM fun index =>
    if 10 + index * 8 ≤ rawCompressedBytecode.length then
      some (BigEndian.decode ((rawCompressedBytecode.drop (2 + index * 8)).take 8))
    else none
  if rawCompressedBytecode.length < 2 + dictionaryLen * 8 then none
  let encodedData := rawCompressedBytecode.drop (2 + dictionaryLen * 8)
  let decompressed ← (encodedData.chunks 2).mapM fun indexBytes => do
    if indexBytes.length ≠ 2 then none
    let chunk ← dictionary[BigEndian.decode indexBytes]?
    pure (BigEndian.encode 8 chunk)
  pure decompressed.flatten

end ZksyncEra.Multivm
