import ZksyncEra.Multivm.Bytecode

/-!
Bytecode hashes, and the padding of EVM bytecodes (`basic_types/src/bytecode.rs`).

A bytecode hash is the SHA-256 digest of the padded bytecode with its first four bytes replaced:
the marker of the bytecode's kind, a zero, and the bytecode's length in two big-endian bytes, in
32-byte words for an EraVM bytecode and in bytes for an EVM one. The digest is a parameter
`sha256`: nothing here depends on its value. `H256` values are their 32 bytes.

The cast `as u16` followed by `to_be_bytes` is `encode 2`, which keeps the two low bytes, and
`u16::from_be_bytes` is `decode`. The panics of `expect` and of the padding's assertions are
`none`; `anyhow` errors are their messages.
-/

namespace ZksyncEra.BasicTypes

open BigEndian Multivm

/-- `BytecodeMarker`, encoded in the first byte of the bytecode hash. -/
inductive BytecodeMarker where
  /-- EraVM bytecode marker (1). -/
  | eraVm
  /-- EVM bytecode marker (2). -/
  | evm
  deriving DecidableEq, Repr

/-- `kind as u8`. -/
def BytecodeMarker.toUInt8 : BytecodeMarker → UInt8
  | .eraVm => 1
  | .evm => 2

/-- `BytecodeHash`: a 32-byte hash whose first byte is a known marker. Only `for_generic_bytecode`
and `TryFrom<H256>` build one, and each writes or checks the marker, which is why `marker` never
reaches its `unreachable!()`. -/
structure BytecodeHash where
  value : Vector UInt8 32
  marker_known : value[0] = BytecodeMarker.eraVm.toUInt8 ∨ value[0] = BytecodeMarker.evm.toUInt8

/-- `BytecodeMarker::new`. -/
def BytecodeMarker.new (bytecodeHash : Vector UInt8 32) : Option BytecodeMarker :=
  if bytecodeHash[0] = BytecodeMarker.eraVm.toUInt8 then some .eraVm
  else if bytecodeHash[0] = BytecodeMarker.evm.toUInt8 then some .evm
  else none

/-- `TryFrom<H256> for BytecodeHash`. -/
def BytecodeHash.tryFrom (rawHash : Vector UInt8 32) : Except String BytecodeHash :=
  if known : rawHash[0] = BytecodeMarker.eraVm.toUInt8 ∨ rawHash[0] = BytecodeMarker.evm.toUInt8 then
    .ok ⟨rawHash, known⟩
  else .error "unknown bytecode hash marker"

section Hash

variable (sha256 : List UInt8 → Vector UInt8 32)

/-- `BytecodeHash::for_generic_bytecode`. -/
def forGenericBytecode (kind : BytecodeMarker) (bytecode : List UInt8)
    (bytecodeLenInBytes : Nat) : Option BytecodeHash :=
  match validateBytecode bytecode with
  | .error _ => none
  | .ok () =>
    let len := match kind with
      | .eraVm => encode 2 (bytecodeLenInBytes / 32)
      | .evm => encode 2 bytecodeLenInBytes
    let result := sha256 bytecode
    let output := (((result.set 0 kind.toUInt8).set 1 0 (by decide)).set 2 (len.getD 0 0) (by decide)).set 3
      (len.getD 1 0) (by decide)
    some ⟨output, by cases kind <;> simp [output, BytecodeMarker.toUInt8]⟩

/-- `BytecodeHash::for_bytecode`: hashes an EraVM bytecode. -/
def forBytecode (bytecode : List UInt8) : Option BytecodeHash :=
  forGenericBytecode sha256 .eraVm bytecode bytecode.length

/-- `BytecodeHash::for_evm_bytecode`: hashes a padded EVM bytecode. -/
def forEvmBytecode (rawBytecodeLen : Nat) (bytecode : List UInt8) : Option BytecodeHash :=
  forGenericBytecode sha256 .evm bytecode rawBytecodeLen

end Hash

/-- `BytecodeHash::marker`. -/
def BytecodeHash.marker (self : BytecodeHash) : BytecodeMarker :=
  if self.value[0] = BytecodeMarker.eraVm.toUInt8 then .eraVm
  else .evm

/-- `BytecodeHash::len_in_bytes`. -/
def BytecodeHash.lenInBytes (self : BytecodeHash) : Nat :=
  let rawLen := decode [self.value[2], self.value[3]]
  match self.marker with
  | .eraVm => rawLen * 32
  | .evm => rawLen

/-- `pad_evm_bytecode`: pads to whole 32-byte words, then to an odd number of them. -/
def padEvmBytecode (deployedBytecode : List UInt8) : Option (List UInt8) := do
  let padded := deployedBytecode
  -- Pad to the 32-byte word boundary.
  let padded :=
    if padded.length % 32 ≠ 0 then padded ++ List.replicate (32 - padded.length % 32) 0
    else padded
  if padded.length % 32 ≠ 0 then none
  -- Pad to contain the odd number of words.
  let padded := if (padded.length / 32) % 2 ≠ 1 then padded ++ List.replicate 32 0 else padded
  if (padded.length / 32) % 2 ≠ 1 then none
  pure padded

/-- `BytecodeHash::for_raw_evm_bytecode`: hashes a raw EVM bytecode. -/
def forRawEvmBytecode (sha256 : List UInt8 → Vector UInt8 32) (bytecode : List UInt8) :
    Option BytecodeHash := do
  let paddedEvmBytecode ← padEvmBytecode bytecode
  forEvmBytecode sha256 bytecode.length paddedEvmBytecode

/-- `trim_padded_evm_bytecode`: removes the padding from an EVM bytecode. -/
def trimPaddedEvmBytecode (bytecodeHash : BytecodeHash) (raw : List UInt8) :
    Except String (List UInt8) := do
  if bytecodeHash.marker ≠ .evm then throw "only EVM bytecode hashes allowed"
  match validateBytecode raw with
  | .error _ => throw "bytecode fails basic validity checks"
  | .ok () => pure ()
  -- Actual raw unpadded EVM bytecode length is encoded in bytecode hash
  let bytecodeLen := bytecodeHash.lenInBytes
  if raw.length < bytecodeLen then
    throw ("encoded length (" ++ toString bytecodeLen ++ ") exceeds real length (" ++
      toString raw.length ++ ")")
  let bytecode := raw.take bytecodeLen
  let padding := raw.drop bytecodeLen
  if ¬ padding.all (· == 0) then throw "bytecode padding contains non-zero bytes"
  pure bytecode

/-- `trim_bytecode`: removes the padding from a bytecode, if necessary. -/
def trimBytecode (bytecodeHash : BytecodeHash) (raw : List UInt8) : Except String (List UInt8) :=
  match bytecodeHash.marker with
  | .eraVm => pure raw
  | .evm => trimPaddedEvmBytecode bytecodeHash raw

end ZksyncEra.BasicTypes
