import ZksyncEra.MerkleTree.Serialization
import ZksyncEra.Lib.Chunks

/-!
The layout of the bootloader heap in `vm_latest` (`constants.rs`), and what one transaction and one
L2 block write into it (`bootloader/utils.rs`), with the transactions and L2 blocks the bootloader
state keeps (`bootloader/tx.rs`, `bootloader/l2_block.rs`, `bootloader/snapshot.rs`).

The bootloader memory is the list of `(slot, word)` writes, later ones taking effect over earlier
ones when the VM populates its page. A transaction is given by its hash and its ABI-encoded words
(`TransactionData::signed_and_tx_hashes`, `into_tokens`); the expected `ecrecover` call is not
modelled. `keccak256` is a parameter, and so is `encode_call` for a compressed bytecode, whose
words are the bytes of all its calls in 32-byte chunks. The `usize`, `u32` and `u64` counters and
fields are natural numbers (`number + 1` and `timestamp + 1` stay below their widths).
-/

namespace ZksyncEra.Multivm

open MerkleTree

/-- `BootloaderMemory`: the `(slot, word)` writes into the bootloader heap, in order. -/
abbrev BootloaderMemory := List (Nat × U256)

/-! ### The layout

The heap from `DEBUG_SLOTS_OFFSET` on: the debug slots, the paymaster context, the current L2
transaction hashes, the new factory dependencies, then one area of `MAX_TXS_IN_BATCH` slots each for
the operator's refunds, overheads and trusted gas limits, the L2 block information of every
transaction, the compressed bytecodes, the priority transactions' L1 data, the L1 messenger
pubdata, and the transaction descriptions. Each `get_*_offset` is where its area starts, which
depends on the subversion through the number of factory dependencies. -/

/-- `MultiVmSubversion` of `vm_latest`. -/
inductive MultiVmSubversion where
  | smallBootloaderMemory
  | increasedBootloaderMemory
  | gateway
  | evmEmulator
  deriving DecidableEq, Repr

inductive TxExecutionMode where
  | verifyExecute
  | estimateFee
  | ethCall
  deriving DecidableEq, Repr

def MAX_TXS_IN_BATCH : Nat := 10000

def DEBUG_SLOTS_OFFSET : Nat := 8

def DEBUG_FIRST_SLOTS : Nat := 32

def PAYMASTER_CONTEXT_SLOTS : Nat := 32 + 1

def MAX_POSTOP_SLOTS : Nat := PAYMASTER_CONTEXT_SLOTS + 7

def CURRENT_L2_TX_HASHES_SLOTS : Nat := 2

def getMaxNewFactoryDeps : MultiVmSubversion → Nat
  | .smallBootloaderMemory | .increasedBootloaderMemory => 32
  | .gateway | .evmEmulator => 64

def getNewFactoryDepsReservedSlots (subversion : MultiVmSubversion) : Nat :=
  getMaxNewFactoryDeps subversion + 4

def OPERATOR_REFUNDS_SLOTS : Nat := MAX_TXS_IN_BATCH

def getOperatorRefundsOffset (subversion : MultiVmSubversion) : Nat :=
  DEBUG_SLOTS_OFFSET + DEBUG_FIRST_SLOTS + PAYMASTER_CONTEXT_SLOTS + CURRENT_L2_TX_HASHES_SLOTS +
    getNewFactoryDepsReservedSlots subversion

def getTxOverheadOffset (subversion : MultiVmSubversion) : Nat :=
  getOperatorRefundsOffset subversion + OPERATOR_REFUNDS_SLOTS

def TX_OVERHEAD_SLOTS : Nat := MAX_TXS_IN_BATCH

def getTxTrustedGasLimitOffset (subversion : MultiVmSubversion) : Nat :=
  getTxOverheadOffset subversion + TX_OVERHEAD_SLOTS

def TX_TRUSTED_GAS_LIMIT_SLOTS : Nat := MAX_TXS_IN_BATCH

def getTxOperatorL2BlockInfoOffset (subversion : MultiVmSubversion) : Nat :=
  getTxTrustedGasLimitOffset subversion + TX_TRUSTED_GAS_LIMIT_SLOTS

def TX_OPERATOR_SLOTS_PER_L2_BLOCK_INFO : Nat := 4

def TX_OPERATOR_L2_BLOCK_INFO_SLOTS : Nat :=
  (MAX_TXS_IN_BATCH + 1) * TX_OPERATOR_SLOTS_PER_L2_BLOCK_INFO

def getCompressedBytecodesOffset (subversion : MultiVmSubversion) : Nat :=
  getTxOperatorL2BlockInfoOffset subversion + TX_OPERATOR_L2_BLOCK_INFO_SLOTS

def COMPRESSED_BYTECODES_SLOTS : Nat := 196608

def getPriorityTxsL1DataOffset (subversion : MultiVmSubversion) : Nat :=
  getCompressedBytecodesOffset subversion + COMPRESSED_BYTECODES_SLOTS

def PRIORITY_TXS_L1_DATA_SLOTS : Nat := 2

def getOperatorProvidedL1MessengerPubdataOffset (subversion : MultiVmSubversion) : Nat :=
  getPriorityTxsL1DataOffset subversion + PRIORITY_TXS_L1_DATA_SLOTS

def OPERATOR_PROVIDED_L1_MESSENGER_PUBDATA_SLOTS : Nat := 1360000

def getBootloaderTxDescriptionOffset (subversion : MultiVmSubversion) : Nat :=
  getOperatorProvidedL1MessengerPubdataOffset subversion + OPERATOR_PROVIDED_L1_MESSENGER_PUBDATA_SLOTS

def BOOTLOADER_TX_DESCRIPTION_SIZE : Nat := 2

def getTxDescriptionOffset (subversion : MultiVmSubversion) : Nat :=
  getBootloaderTxDescriptionOffset subversion + BOOTLOADER_TX_DESCRIPTION_SIZE * MAX_TXS_IN_BATCH +
    MAX_POSTOP_SLOTS

/-! ### Transactions and L2 blocks -/

/-- `BootloaderTx`, over the type `C` of compressed bytecodes. -/
structure BootloaderTx (C : Type) where
  hash : H256
  /-- Encoded transaction -/
  encoded : List U256
  /-- Compressed bytecodes, which has been published during this transaction -/
  compressedBytecodes : List C
  /-- Refunds for this transaction -/
  refund : Nat
  /-- Gas overhead -/
  gasOverhead : Nat
  /-- Gas Limit for this transaction. -/
  trustedGasLimit : U256
  /-- Offset of the tx in bootloader memory -/
  offset : Nat
  deriving DecidableEq, Repr

/-- `BootloaderTx::new`, for a transaction given by its hash and its encoding. -/
def BootloaderTx.new {C : Type} (hash : H256) (encoded : List U256) (predefinedRefund : Nat)
    (predefinedOverhead : Nat) (trustedGasLimit : U256) (compressedBytecodes : List C)
    (offset : Nat) : BootloaderTx C :=
  ⟨hash, encoded, compressedBytecodes, predefinedRefund, predefinedOverhead, trustedGasLimit, offset⟩

def BootloaderTx.encodedLen {C : Type} (self : BootloaderTx C) : Nat := self.encoded.length

/-- `L2BlockEnv`: the L2 block a `start_new_l2_block` opens. -/
structure L2BlockEnv where
  number : Nat
  timestamp : Nat
  prevBlockHash : H256
  maxVirtualBlocksToCreate : Nat
  deriving DecidableEq, Repr

/-- `L2Block`: a sealed block as the next one refers to it. -/
structure L2Block where
  number : Nat
  timestamp : Nat
  hash : H256
  deriving DecidableEq, Repr

structure L2BlockSnapshot where
  /-- The rolling hash of all the transactions in the miniblock -/
  txsRollingHash : H256
  /-- The number of transactions in the last L2 block -/
  txsLen : Nat
  deriving DecidableEq, Repr

/-- `BootloaderL2Block`: an open L2 block with its transactions. -/
structure BootloaderL2Block (C : Type) where
  number : Nat
  timestamp : Nat
  /-- The rolling hash of all the transactions in the miniblock -/
  txsRollingHash : H256
  prevBlockHash : H256
  /-- Number of the first L2 block tx in L1 batch -/
  firstTxIndex : Nat
  maxVirtualBlocksToCreate : Nat
  txs : List (BootloaderTx C)
  deriving DecidableEq, Repr

def EMPTY_TXS_ROLLING_HASH : H256 := 0

section Hashing

variable (keccak256 : List UInt8 → H256)

/-- `keccak256_concat`: the hash of two hashes' bytes one after the other. -/
def keccak256Concat (lhs rhs : H256) : H256 := keccak256 (U256.bytes lhs ++ U256.bytes rhs)

/-- `l2_block_hash`: the hash of the number, the timestamp, the previous hash and the rolling hash,
each as a 32-byte big-endian word. -/
def l2BlockHash (l2BlockNumber l2BlockTimestamp : Nat) (prevL2BlockHash txsRollingHash : H256) :
    H256 :=
  keccak256 (U256.bytes (BitVec.ofNat 256 l2BlockNumber) ++ U256.bytes (BitVec.ofNat 256 l2BlockTimestamp) ++
    U256.bytes prevL2BlockHash ++ U256.bytes txsRollingHash)

namespace BootloaderL2Block

variable {C : Type}

/-- `BootloaderL2Block::new`: an empty block whose transactions start at `firstTxPlace`. -/
def new (l2Block : L2BlockEnv) (firstTxPlace : Nat) : BootloaderL2Block C :=
  ⟨l2Block.number, l2Block.timestamp, EMPTY_TXS_ROLLING_HASH, l2Block.prevBlockHash, firstTxPlace,
    l2Block.maxVirtualBlocksToCreate, []⟩

/-- `push_tx`, with `update_rolling_hash`. -/
def pushTx (self : BootloaderL2Block C) (tx : BootloaderTx C) : BootloaderL2Block C :=
  { self with
    txsRollingHash := keccak256Concat keccak256 self.txsRollingHash tx.hash
    txs := self.txs ++ [tx] }

def getHash (self : BootloaderL2Block C) : H256 :=
  l2BlockHash keccak256 self.number self.timestamp self.prevBlockHash self.txsRollingHash

/-- `l2_block`: the block as the next one checks it, with its hash. -/
def l2Block (self : BootloaderL2Block C) : L2Block :=
  ⟨self.number, self.timestamp, self.getHash keccak256⟩

end BootloaderL2Block

end Hashing

namespace BootloaderL2Block

variable {C : Type}

/-- `make_snapshot`: the rolling hash and the number of transactions. -/
def makeSnapshot (self : BootloaderL2Block C) : L2BlockSnapshot :=
  ⟨self.txsRollingHash, self.txs.length⟩

/-- `apply_snapshot`: the rolling hash is restored and the transactions truncated; a snapshot
with more transactions panics. -/
def applySnapshot (self : BootloaderL2Block C) (snapshot : L2BlockSnapshot) :
    Option (BootloaderL2Block C) :=
  let self := { self with txsRollingHash := snapshot.txsRollingHash }
  match compare self.txs.length snapshot.txsLen with
  | .gt => some { self with txs := self.txs.take snapshot.txsLen }
  | .lt => none
  | .eq => some self

end BootloaderL2Block

/-! ### Writing into the bootloader memory -/

/-- `assemble_tx_meta`: the execution mode in the most significant byte, whether to execute the
transaction in the least significant one. -/
def assembleTxMeta (executionMode : TxExecutionMode) (executeTx : Bool) : U256 :=
  let mode : UInt8 := match executionMode with
    | .verifyExecute => 0x00
    | .estimateFee => 0x00
    | .ethCall => 0x02
  U256.fromBigEndian (mode :: List.replicate 30 0 ++ [if executeTx then 1 else 0])

/-- `bytes_to_be_words`, which panics unless the bytes are whole words. -/
def bytesToBeWords (bytes : List UInt8) : Option (List U256) :=
  if bytes.length % 32 = 0 then some ((List.chunks 32 bytes).map U256.fromBigEndian) else none

/-- `get_memory_for_compressed_bytecodes`: the words of the calls that publish the bytecodes. -/
def getMemoryForCompressedBytecodes {C : Type} (encodeCall : C → List UInt8)
    (compressedBytecodes : List C) : Option (List U256) :=
  bytesToBeWords (compressedBytecodes.flatMap encodeCall)

/-- `apply_l2_block_inner`: the number, timestamp, previous hash and (for the first transaction of
a block) the virtual blocks to create, at the block-info slots of transaction `txsIndex`. -/
def applyL2BlockInner {C : Type} (memory : BootloaderMemory) (bootloaderL2Block : BootloaderL2Block C)
    (txsIndex : Nat) (startNewL2Block : Bool) (subversion : MultiVmSubversion) : BootloaderMemory :=
  let blockPosition :=
    getTxOperatorL2BlockInfoOffset subversion + txsIndex * TX_OPERATOR_SLOTS_PER_L2_BLOCK_INFO
  memory ++
    [(blockPosition, BitVec.ofNat 256 bootloaderL2Block.number),
      (blockPosition + 1, BitVec.ofNat 256 bootloaderL2Block.timestamp),
      (blockPosition + 2, bootloaderL2Block.prevBlockHash),
      (blockPosition + 3,
        if startNewL2Block then BitVec.ofNat 256 bootloaderL2Block.maxVirtualBlocksToCreate else 0)]

/-- `apply_l2_block`: the block's info written as that of a new block. -/
def applyL2Block {C : Type} (memory : BootloaderMemory) (bootloaderL2Block : BootloaderL2Block C)
    (txsIndex : Nat) (subversion : MultiVmSubversion) : BootloaderMemory :=
  applyL2BlockInner memory bootloaderL2Block txsIndex true subversion

/-- `apply_tx_to_memory`: the transaction's description, refund, overhead, trusted gas limit and
encoding, its block's info, and the words of its compressed bytecodes after those already
included; returns the number of those words. -/
def applyTxToMemory {C : Type} (encodeCall : C → List UInt8) (memory : BootloaderMemory)
    (bootloaderTx : BootloaderTx C) (bootloaderL2Block : BootloaderL2Block C) (txIndex txOffset : Nat)
    (compressedBytecodesSize : Nat) (executionMode : TxExecutionMode) (startNewL2Block : Bool)
    (subversion : MultiVmSubversion) : Option (BootloaderMemory × Nat) := do
  let bootloaderDescriptionOffset :=
    getBootloaderTxDescriptionOffset subversion + BOOTLOADER_TX_DESCRIPTION_SIZE * txIndex
  let txDescriptionOffset := getTxDescriptionOffset subversion + txOffset
  let memory := memory ++
    [(bootloaderDescriptionOffset, assembleTxMeta executionMode true),
      (bootloaderDescriptionOffset + 1, BitVec.ofNat 256 (32 * txDescriptionOffset)),
      (getOperatorRefundsOffset subversion + txIndex, BitVec.ofNat 256 bootloaderTx.refund),
      (getTxOverheadOffset subversion + txIndex, BitVec.ofNat 256 bootloaderTx.gasOverhead),
      (getTxTrustedGasLimitOffset subversion + txIndex, bootloaderTx.trustedGasLimit)] ++
    (List.range' txDescriptionOffset bootloaderTx.encodedLen).zip bootloaderTx.encoded
  let memory := applyL2BlockInner memory bootloaderL2Block txIndex startNewL2Block subversion
  -- Note, +1 is moving for pointer
  let compressedBytecodesOffset := getCompressedBytecodesOffset subversion + 1 + compressedBytecodesSize
  let encodedCompressedBytecodes ←
    getMemoryForCompressedBytecodes encodeCall bootloaderTx.compressedBytecodes
  let memory := memory ++
    (List.range' compressedBytecodesOffset encodedCompressedBytecodes.length).zip
      encodedCompressedBytecodes
  pure (memory, encodedCompressedBytecodes.length)

/-- `apply_pubdata_to_memory`, for the pubdata bytes the subversion's encoding gives (the
`l1_messenger_operator_input` of the pubdata builder, ABI-encoded): they go in 32-byte words after
the slots the bootloader fills itself, and panic when too big. -/
def applyPubdataToMemory (memory : BootloaderMemory) (pubdata : List UInt8)
    (subversion : MultiVmSubversion) : Option BootloaderMemory := do
  let (l1MessengerPubdataStartSlot, fits) := match subversion with
    | .smallBootloaderMemory | .increasedBootloaderMemory =>
      (getOperatorProvidedL1MessengerPubdataOffset subversion + 2,
        decide (pubdata.length / 32 ≤ OPERATOR_PROVIDED_L1_MESSENGER_PUBDATA_SLOTS - 2))
    | .gateway | .evmEmulator =>
      (getOperatorProvidedL1MessengerPubdataOffset subversion + 1,
        decide (pubdata.length / 32 < OPERATOR_PROVIDED_L1_MESSENGER_PUBDATA_SLOTS))
  if fits then
    pure (memory ++ (List.chunks 32 pubdata).zipIdx.map fun (value, slotOffset) =>
      (l1MessengerPubdataStartSlot + slotOffset, U256.fromBigEndian value))
  else none

end ZksyncEra.Multivm
